import Excerpt.Proofs.Draft.Tour
import Excerpt.Proofs.Program.Nesting

/-!
The order in which a unit is laid out: items, directives and headers inside each other.
-/

namespace Excerpt

namespace Program

structure SameTables (before after : Program) : Prop where
  files : after.files = before.files
  items : after.items = before.items
  macros : after.macros = before.macros
  includes : after.includes = before.includes

theorem SameTables.file {before after : Program} (same : before.SameTables after) (id : FileId) :
    after.file id = before.file id := by
  rw [Program.file, same.files, ← Program.file]

structure Added (item : Item) (before after : Program) : Prop where
  files : after.files = before.files
  items : after.items = before.items.push item
  macros : after.macros = before.macros ∧ (∀ m, item.kind ≠ .directive m) ∨
    ∃ entry, after.macros = before.macros.push entry ∧ item.kind = .directive before.macros.size ∧
      entry.item = before.items.size ∧ entry.pos.seq = before.items.size
  includes : after.includes = before.includes ∧ (∀ k, item.kind ≠ .inclusion k) ∨
    ∃ entry, after.includes = before.includes.push entry ∧ item.kind = .inclusion before.includes.size ∧
      entry.item = before.items.size ∧ entry.parent = (before.file item.file).includedBy

section Added

variable {item : Item} {before after : Program} (added : before.Added item after)
include added

theorem Added.extends : before.Extends after := by
  refine ⟨added.files ▸ List.prefix_rfl, added.items ▸ prefix_push _ _, ?_, ?_⟩
  · rcases added.macros with ⟨same, -⟩ | ⟨entry, pushed, -⟩
    · exact same ▸ List.prefix_rfl
    · exact pushed ▸ prefix_push _ _
  · rcases added.includes with ⟨same, -⟩ | ⟨entry, pushed, -⟩
    · exact same ▸ List.prefix_rfl
    · exact pushed ▸ prefix_push _ _

theorem Added.last : after.item before.items.size = item := by
  simp [Program.item, added.items]

/-- An item that opens no header is added inside the innermost one. -/
theorem Added.unrolling {pending : List Nat} (unrolling : before.Unrolling pending)
    (inside : item.file < before.files.size)
    (around : (before.file item.file).includedBy = pending.head?) : after.Unrolling pending := by
  have last := added.last
  have file : ∀ id, after.file id = before.file id := fun id => by rw [Program.file, added.files, ← Program.file]
  refine unrolling.push ⟨added.extends, ?_, ?_, by simp [added.items], ?_, ?_, ?_, ?_, ?_, ?_, .inl ⟨rfl, ?_⟩⟩
  · intro id k new old
    exact absurd (added.files ▸ old) (Nat.not_lt.mpr new)
  · rw [last, added.files]
    exact inside
  · rcases added.includes with ⟨same, -⟩ | ⟨entry, pushed, -⟩
    · rw [same]
      exact Nat.le_succ _
    · simp [pushed]
  · rw [Program.around, last, file, around]
  · intro m new old
    rcases added.macros with ⟨same, -⟩ | ⟨entry, pushed, kind, place, pos⟩
    · exact absurd (same ▸ old) (Nat.not_lt.mpr new)
    · obtain rfl : m = before.macros.size := by
        rw [pushed, Array.size_push] at old
        omega
      have own : after.directive before.macros.size = entry := by simp [Program.directive, pushed]
      rw [last, own]
      exact ⟨place, kind, pos⟩
  · intro m found
    rw [last] at found
    rcases added.macros with ⟨-, plain⟩ | ⟨entry, pushed, kind, place, pos⟩
    · exact absurd found (plain m)
    · cases kind.symm.trans found
      have own : after.directive before.macros.size = entry := by simp [Program.directive, pushed]
      rw [own, pushed, Array.size_push]
      exact ⟨Nat.lt_succ_self _, place⟩
  · intro k found
    rw [last] at found
    rcases added.includes with ⟨-, plain⟩ | ⟨entry, pushed, kind, -⟩
    · exact absurd found (plain k)
    · cases kind.symm.trans found
      rw [pushed, Array.size_push]
      exact Nat.lt_succ_self _
  · intro old
    rcases added.includes with ⟨same, -⟩ | ⟨entry, pushed, -, place, parent⟩
    · exact absurd (same ▸ old) (Nat.lt_irrefl _)
    · have own : after.inclusion before.includes.size = entry := by simp [Program.inclusion, pushed]
      rw [own, parent, around]
      exact ⟨place, rfl⟩
  · intro old
    rcases added.includes with ⟨same, -⟩ | ⟨entry, pushed, kind, -⟩
    · exact absurd (same ▸ old) (Nat.lt_irrefl _)
    · rw [last, kind]

end Added

/-- A header is opened in the file of an item: the item, its directive and the new file are added. -/
structure Opens (item : Item) (entry : Inclusion) (source : SourceFile) (before after : Program) : Prop where
  files : after.files = before.files.push source
  items : after.items = before.items.push item
  macros : after.macros = before.macros
  includes : after.includes = before.includes.push entry
  kind : item.kind = .other
  place : entry.item = before.items.size
  parent : entry.parent = (before.file item.file).includedBy
  includedBy : source.includedBy = some before.includes.size

section Opens

variable {item : Item} {entry : Inclusion} {source : SourceFile} {before after : Program}
  (opens : before.Opens item entry source after)
include opens

theorem Opens.extends : before.Extends after :=
  ⟨opens.files ▸ prefix_push _ _, opens.items ▸ prefix_push _ _, opens.macros ▸ List.prefix_rfl,
    opens.includes ▸ prefix_push _ _⟩

theorem Opens.last : after.item before.items.size = item := by
  simp [Program.item, opens.items]

theorem Opens.lastEntry : after.inclusion before.includes.size = entry := by
  simp [Program.inclusion, opens.includes]

theorem Opens.lastFile : after.file before.files.size = source := by
  simp [Program.file, opens.files]

/-- A directive whose header is read is the innermost one until the header is left. -/
theorem Opens.unrolling {pending : List Nat} (unrolling : before.Unrolling pending)
    (inside : item.file < before.files.size)
    (around : (before.file item.file).includedBy = pending.head?) :
    after.Unrolling (before.includes.size :: pending) := by
  have grows := opens.extends
  have room : before.includes.size < after.includes.size := by simp [opens.includes]
  have kind : (after.item before.items.size).kind = .other := by rw [opens.last, opens.kind]
  refine unrolling.push ⟨grows, ?_, ?_, by simp [opens.items], by simp [opens.includes], ?_, ?_, ?_, ?_, ?_,
    .inr ⟨rfl, room, kind⟩⟩
  · intro id k new old found
    obtain rfl : id = before.files.size := by
      rw [opens.files, Array.size_push] at old
      omega
    rw [opens.lastFile, opens.includedBy] at found
    cases found
    exact room
  · rw [opens.last]
    exact inside.trans_le grows.fileCount
  · rw [Program.around, opens.last, grows.file _ inside, around]
  · intro m new old
    exact absurd (opens.macros ▸ old) (Nat.not_lt.mpr new)
  · intro m found
    rw [kind] at found
    cases found
  · intro k found
    rw [kind] at found
    cases found
  · intro _
    rw [opens.lastEntry, opens.parent, around]
    exact ⟨opens.place, rfl⟩

end Opens

end Program

theorem Surface.Form.macro_of_isCode {form : Form} (isCode : form.isCode = true) : form.macro? = none := by
  cases form with
  | function | declaration | other => rfl
  | inclusion | define | undef | directive => cases isCode

theorem Drafting.addUses_sameTables (uses : List MacroUse) (program : Program) :
    program.SameTables (uses.foldl Program.addUse program) := by
  induction uses generalizing program with
  | nil => exact ⟨rfl, rfl, rfl, rfl⟩
  | cons first rest ih =>
    have rest := ih (program.addUse first)
    exact ⟨rest.files, rest.items, rest.macros, rest.includes⟩

theorem Opening.after_sameTables (opening : Opening) : opening.draft.program.SameTables opening.after.program := by
  have uses := Drafting.addUses_sameTables opening.uses opening.draft.program
  have layout := (Drafting.codeOf_steps opening.item.form opening.start).sameLayout
  exact ⟨layout.files.trans uses.files, layout.items.trans uses.items, layout.macros.trans uses.macros,
    layout.includes.trans uses.includes⟩

section Steps

variable {files : FileSystem} {search : SearchPath} {frame : Frame} {item : Surface.Item} {draft after : Draft}
  {kind : ItemKind}

theorem Opening.Enters.added (enters : (frame.opening item draft).Enters files search kind after) :
    draft.program.Added ⟨frame.file, item.extent.inFile frame.file, kind⟩
      (after.setKind draft.program.items.size kind).program := by
  have filled :
      ∀ {items : Array Item}, items = draft.program.items.push ⟨frame.file, item.extent.inFile frame.file, .other⟩ →
      (items.modify draft.program.items.size fun item => { item with kind }) =
        draft.program.items.push ⟨frame.file, item.extent.inFile frame.file, kind⟩ := by
    rintro _ rfl
    exact Program.modify_push _ _ _
  cases enters with
  | code isCode members =>
    have same := (frame.opening item draft).after_sameTables
    refine ⟨same.files, filled same.items, .inl ⟨same.macros, ?_⟩, .inl ⟨same.includes, ?_⟩⟩
    · rw [members]
      split <;> simp
    · rw [members]
      split <;> simp
  | directive isDirective =>
    obtain ⟨⟨name, kind⟩, form⟩ := Option.isSome_iff_exists.mp isDirective
    have pushed :
        (frame.opening item draft).macros = draft.program.macros.push ⟨name, kind, item.extent.inFile frame.file,
        ⟨draft.program.items.size, item.extent.start⟩, draft.program.items.size⟩ := by
      rw [Opening.macros, form]
      rfl
    exact ⟨rfl, filled rfl, .inr ⟨_, pushed, rfl, rfl, rfl⟩, .inl ⟨rfl, by simp⟩⟩
  | inclusion => exact ⟨rfl, filled rfl, .inl ⟨rfl, by simp⟩, .inr ⟨_, rfl, rfl, rfl, rfl⟩⟩
  | other => exact ⟨rfl, filled rfl, .inl ⟨rfl, by simp⟩, .inl ⟨rfl, by simp⟩⟩

theorem Drafting.header_opens {header path : String} {system : Bool} {document : Document}
    (read : (frame.opening item draft).draft.header? files search header system = some (path, document, after)) :
    draft.program.Opens ⟨frame.file, item.extent.inFile frame.file, .other⟩
      ⟨header, system, some path, none, (draft.program.file frame.file).includedBy, draft.program.items.size⟩
      ⟨path, document.text, some draft.program.includes.size⟩
      (after.program.addFile path document.text (some draft.program.includes.size)) := by
  obtain ⟨-, place, -, -, rfl⟩ := Drafting.found_of_header read
  exact ⟨rfl, rfl, rfl, rfl, rfl, rfl, rfl, rfl⟩

end Steps

def Frame.inc (frame : Frame) : Option IncludeId :=
  frame.host.map fun host => host.program.includes.size

structure Tour.Unrolls (tour : Tour) : Prop where
  unrolling : ∃ pending : List Nat, tour.frames.map Frame.inc = pending.map some ++ [none] ∧
    tour.draft.program.Unrolling pending
  frames : ∀ frame ∈ tour.frames, frame.file < tour.draft.program.files.size ∧
    (tour.draft.program.file frame.file).includedBy = frame.inc
  hosts : ∀ frame ∈ tour.frames, ∀ host, frame.host = some host →
    host.program.includes.size < tour.draft.program.includes.size ∧
      (tour.draft.program.inclusion host.program.includes.size).item = host.item

namespace Tour

variable {files : FileSystem} {search : SearchPath} {before after : Tour}

theorem Unrolls.extend (unrolls : before.Unrolls) {program : Program} (grows : before.draft.program.Extends program) :
    ∀ frame ∈ before.frames, (frame.file < program.files.size ∧ (program.file frame.file).includedBy = frame.inc) ∧
      ∀ host, frame.host = some host → host.program.includes.size < program.includes.size ∧
        (program.inclusion host.program.includes.size).item = host.item := by
  intro frame member
  obtain ⟨inside, inc⟩ := unrolls.frames frame member
  refine ⟨⟨inside.trans_le grows.fileCount, by rw [grows.file _ inside, inc]⟩, fun host met => ?_⟩
  obtain ⟨known, place⟩ := unrolls.hosts frame member host met
  exact ⟨known.trans_le grows.includeCount, by rw [grows.inclusion _ known, place]⟩

/-- When a header is left, its directive is still open and gets the file. -/
theorem Unrolls.leaves {inner : Frame} {stack : List Frame} {openings : List Opening} {draft host : Draft}
    (unrolls : Unrolls ⟨inner :: stack, openings, draft⟩) (met : inner.host = some host) :
    inner.inc = some host.program.includes.size ∧ (draft.program.item host.item).kind = .other ∧
      draft.program.Fills host.program.includes.size inner.file (draft.leave host inner.file).program := by
  obtain ⟨pending, shape, unrolling⟩ := unrolls.unrolling
  obtain ⟨known, place⟩ := unrolls.hosts inner List.mem_cons_self host met
  have inc : inner.inc = some host.program.includes.size := by rw [Frame.inc, met]; rfl
  have running : host.program.includes.size ∈ pending := by
    have member : inner.inc ∈ (inner :: stack).map Frame.inc := List.mem_cons_self
    rw [shape, inc] at member
    simpa using member
  have fills := Program.fills_setIncludedFile known (unrolling.inclusions _ known).1 inner.file
  rw [place] at fills
  exact ⟨inc, place ▸ (unrolling.opened _ running).2, fills⟩

/-- The step: an item is entered, a header is opened, or the innermost one is left. -/
theorem Unrolls.step (step : Step files search before after) (unrolls : before.Unrolls) : after.Unrolls := by
  obtain ⟨pending, shape, unrolling⟩ := unrolls.unrolling
  cases step with
  | @enter frame stack openings draft after item rest kind next enters =>
    have added := enters.added
    obtain ⟨inside, inc⟩ := unrolls.frames frame List.mem_cons_self
    have around : frame.inc = pending.head? := by cases pending <;> simp_all
    obtain ⟨own, others⟩ := List.forall_mem_cons.mp (unrolls.extend added.extends)
    exact ⟨⟨pending, shape, added.unrolling unrolling inside (inc.trans around)⟩,
      List.forall_mem_cons.mpr ⟨own.1, fun frame member => (others frame member).1⟩,
      List.forall_mem_cons.mpr ⟨own.2, fun frame member => (others frame member).2⟩⟩
  | @header frame stack openings draft reading item rest header path system document next form read =>
    have opens := Drafting.header_opens read
    obtain ⟨inside, inc⟩ := unrolls.frames frame List.mem_cons_self
    have around : frame.inc = pending.head? := by cases pending <;> simp_all
    obtain ⟨own, others⟩ := List.forall_mem_cons.mp (unrolls.extend opens.extends)
    refine ⟨⟨draft.program.includes.size :: pending, ?_, opens.unrolling unrolling inside (inc.trans around)⟩, ?_, ?_⟩
    · exact congrArg (some draft.program.includes.size :: ·) shape
    · refine List.forall_mem_cons.mpr
        ⟨⟨?_, ?_⟩, List.forall_mem_cons.mpr ⟨own.1, fun frame member => (others frame member).1⟩⟩
      · simp [opens.files]
      · exact congrArg SourceFile.includedBy opens.lastFile
    · refine List.forall_mem_cons.mpr
        ⟨?_, List.forall_mem_cons.mpr ⟨own.2, fun frame member => (others frame member).2⟩⟩
      rintro host same
      cases same
      refine ⟨?_, congrArg Inclusion.item opens.lastEntry⟩
      simp [opens.includes, Frame.opening, Draft.openItem, Program.addItem]
  | @leave inner outer stack openings draft host done met =>
    obtain ⟨inc, -, fills⟩ := unrolls.leaves met
    obtain ⟨pending, rfl⟩ : ∃ others, pending = host.program.includes.size :: others := by
      cases pending with
      | nil => simp_all
      | cons k others => simp_all
    have others : ∀ frame ∈ outer :: stack, frame ∈ inner :: outer :: stack := fun frame => List.mem_cons_of_mem _
    refine ⟨⟨pending, List.tail_eq_of_cons_eq shape, unrolling.fill fills⟩, fun frame member => ?_,
      fun frame member other met => ?_⟩
    · exact unrolls.frames frame (others frame member)
    · obtain ⟨known, place⟩ := unrolls.hosts frame (others frame member) other met
      exact ⟨fills.includes ▸ known, (fills.place _).trans place⟩

theorem start_unrolls (path : String) (document : Document) : (Tour.start path document).Unrolls := by
  refine ⟨⟨[], rfl, ⟨fun id k inside found => ?_, ?_, ?_⟩, ?_, ?_, ?_, ?_, ?_, ?_, ?_, ?_, ?_, ?_⟩, ?_, ?_⟩
  · obtain rfl : id = 0 := by simpa [Tour.start, Program.addFile] using inside
    cases found
  all_goals simp [Tour.start, Program.addFile, Program.file, Frame.inc]

end Tour

/-- The tables of a unit that was read. -/
theorem Program.ofDocument_unrolled (files : FileSystem) (search : SearchPath) (path : String) (document : Document) :
    (Program.ofDocument files search path document).Unrolling [] := by
  obtain ⟨draft, ⟨⟨pending, shape, unrolling⟩, -, -⟩, built⟩ :=
    exists_tour files search (Tour.start_unrolls path document) Tour.Unrolls.step
  obtain rfl : pending = [] := by cases pending <;> simp_all
  rw [built]
  exact unrolling.finish

end Excerpt
