import Excerpt.Proofs.Draft.Layout
import Excerpt.Proofs.Draft.Written
import Mathlib.Logic.Relation

/-!
Every header of a unit is read once.
-/

namespace Excerpt

namespace Program

/-- The path at which the header of a directive is found from the file that holds the directive. -/
def resolution (files : FileSystem) (search : SearchPath) (program : Program) (k : IncludeId) : Option String :=
  if (program.inclusion k).system then none
  else
    (search.read files (program.inclusion k).spelled
      (some (program.file (program.item (program.inclusion k).item).file).path)).toOption.map Prod.fst

def Locates (files : FileSystem) (program : Program) (k : IncludeId) (place : Place) : Prop :=
  ∃ path, (program.inclusion k).resolved = some path ∧ files.locate path = .ok place

/-- Each directive was resolved from its own file, and the first one that reaches a place brings in the file there. -/
structure ReadsOnce (files : FileSystem) (search : SearchPath) (program : Program) : Prop where
  ordered : ∀ j k : Nat, j < k → k < program.includes.size → (program.inclusion j).item < (program.inclusion k).item
  resolved : ∀ k : Nat, k < program.includes.size → (program.inclusion k).resolved = program.resolution files search k
  first : ∀ k : Nat, k < program.includes.size → ((program.inclusion k).file.isSome = true ↔
    ∃ place, program.Locates files k place ∧ ∀ j : Nat, j < k → ¬program.Locates files j place)
  repeated : ∀ (j k : Nat) (place : Place), j < k → k < program.includes.size → program.Locates files j place →
    program.Locates files k place → (program.inclusion k).file = none
  headers : ∀ k file : Nat, k < program.includes.size → ((program.inclusion k).file = some file ↔
    file < program.files.size ∧ (program.file file).includedBy = some k)
  distinct : ∀ file k : Nat, file < program.files.size → (program.file file).includedBy = some k →
    ∃ place, program.Locates files k place ∧ files.locate (program.file file).path = .ok place ∧
      ∀ other : Nat, other < program.files.size → (program.file other).includedBy.isSome = true →
        files.locate (program.file other).path = .ok place → other = file

def Brings (program : Program) (k file : Nat) : Prop :=
  file < program.files.size ∧ (program.file file).includedBy = some k

section Tables

variable {files : FileSystem} {search : SearchPath} {program later : Program} {k : Nat}

theorem Locates.unique {place other : Place} (left : program.Locates files k place)
    (right : program.Locates files k other) : other = place := by
  obtain ⟨path, resolved, located⟩ := left
  obtain ⟨path', resolved', located'⟩ := right
  cases resolved.symm.trans resolved'
  cases located.symm.trans located'
  rfl

theorem locates_congr {place : Place} (same : (later.inclusion k).resolved = (program.inclusion k).resolved) :
    later.Locates files k place ↔ program.Locates files k place := by
  rw [Locates, Locates, same]

theorem resolution_congr (system : (later.inclusion k).system = (program.inclusion k).system)
    (spelled : (later.inclusion k).spelled = (program.inclusion k).spelled)
    (path : (later.file (later.item (later.inclusion k).item).file).path =
      (program.file (program.item (program.inclusion k).item).file).path) :
    later.resolution files search k = program.resolution files search k := by
  rw [resolution, resolution, system, spelled, path]

/-- A path is found from the file that holds the directive, and that file stays. -/
theorem Unrolling.resolution {pending : List Nat} (unrolling : program.Unrolling pending)
    (grows : program.Extends later)
    (known : k < program.includes.size) : later.resolution files search k = program.resolution files search k := by
  have inside := (unrolling.inclusions k known).1
  have same := grows.inclusion k known
  apply resolution_congr
  · rw [same]
  · rw [same]
  · rw [same, grows.item _ inside, grows.file _ (unrolling.nested.items _ inside)]

theorem Fills.resolution {source : Nat} (fills : Fills k source program later) (j : Nat) :
    later.resolution files search j = program.resolution files search j := by
  apply resolution_congr
  · rw [fills.inclusion]
    split <;> rfl
  · rw [fills.inclusion]
    split <;> rfl
  · rw [fills.place, fills.host, fills.file]

end Tables

/-- The directives so far were resolved from their own files, and the first one that reached a place brought in the file
there. It is filled in when the header is left. -/
structure Finds (files : FileSystem) (search : SearchPath) (places : List Place) (pending : List Nat)
    (program : Program) : Prop where
  resolved : ∀ k : Nat, k < program.includes.size → (program.inclusion k).resolved = program.resolution files search k
  read : ∀ place, place ∈ places ↔ ∃ k : Nat, k < program.includes.size ∧ program.Locates files k place
  first : ∀ k : Nat, k < program.includes.size → ((∃ file, program.Brings k file) ↔
    ∃ place, program.Locates files k place ∧ ∀ j : Nat, j < k → ¬program.Locates files j place)
  single : ∀ k file, program.Brings k file → (program.inclusion k).resolved = some (program.file file).path ∧
    ∀ other, program.Brings k other → other = file
  filled : ∀ k : Nat, k < program.includes.size → k ∉ pending →
    ∀ file, (program.inclusion k).file = some file ↔ program.Brings k file

section Finds

variable {files : FileSystem} {search : SearchPath} {places places' : List Place} {pending pending' : List Nat}
  {program later : Program} (finds : program.Finds files search places pending)
include finds

/-- What is said of the directives depends on the files and on what was resolved. Entries may be filled. -/
theorem Finds.congr (sources : later.files = program.files) (count : later.includes.size = program.includes.size)
    (entries : ∀ k, (later.inclusion k).resolved = (program.inclusion k).resolved)
    (resolution : ∀ k : Nat, k < program.includes.size →
      later.resolution files search k = program.resolution files search k)
    (filled : ∀ k : Nat, k < program.includes.size → k ∉ pending' →
      ∀ file, (later.inclusion k).file = some file ↔ program.Brings k file) :
    later.Finds files search places pending' := by
  have brings : ∀ k file, later.Brings k file ↔ program.Brings k file := fun k file => by
    rw [Brings, Brings, Program.file, sources, ← Program.file]
  have located : ∀ k place, later.Locates files k place ↔ program.Locates files k place :=
    fun k place => locates_congr (entries k)
  refine ⟨fun k known => ?_, fun place => ?_, fun k known => ?_, fun k file brought => ?_, fun k known shut file => ?_⟩
  · rw [count] at known
    rw [entries, finds.resolved k known, resolution k known]
  · simp only [finds.read, count, located]
  · simp only [brings, located, finds.first k (count ▸ known)]
  · simp only [brings] at brought ⊢
    rw [entries, Program.file, sources]
    exact finds.single k file brought
  · rw [brings, filled k (count ▸ known) shut]

/-- A directive is added, and with it the file at its place if nothing was read there before. -/
theorem Finds.add {outer : List Nat} (unrolling : program.Unrolling outer) {entry : Inclusion}
    (grows : program.Extends later) (includes : later.includes = program.includes.push entry)
    (resolved : entry.resolved = later.resolution files search program.includes.size) (empty : entry.file = none)
    (read : ∀ place, place ∈ places' ↔ place ∈ places ∨ later.Locates files program.includes.size place)
    (brings : ∀ file, later.Brings program.includes.size file ↔
      file = program.files.size ∧ program.files.size < later.files.size)
    (first : program.files.size < later.files.size ↔
      ∃ place, later.Locates files program.includes.size place ∧ place ∉ places)
    (path : program.files.size < later.files.size → later.files.size = program.files.size + 1 ∧
      program.includes.size ∈ pending' ∧ entry.resolved = some (later.file program.files.size).path)
    (shut : pending ⊆ pending') : later.Finds files search places' pending' := by
  have last : later.inclusion program.includes.size = entry := by simp [inclusion, includes]
  have size : later.includes.size = program.includes.size + 1 := by simp [includes]
  have old : ∀ k : Nat, k < program.includes.size → later.inclusion k = program.inclusion k := grows.inclusion
  have cases_ : ∀ k : Nat, k < later.includes.size → k < program.includes.size ∨ k = program.includes.size := by omega
  have located : ∀ k : Nat, k < program.includes.size → ∀ place,
      (later.Locates files k place ↔ program.Locates files k place) :=
    fun k known place => locates_congr (by rw [old k known])
  -- The new file names the new directive, so the others bring in what they brought in before.
  have before : ∀ k file : Nat, k ≠ program.includes.size → (later.Brings k file ↔ program.Brings k file) := by
    intro k file other
    by_cases early : file < program.files.size
    · rw [Brings, Brings, grows.file file early]
      exact and_congr_left fun _ => iff_of_true (early.trans_le grows.fileCount) early
    · refine iff_of_false (fun both => ?_) fun both => early both.1
      have more : program.files.size < later.files.size := (Nat.not_lt.mp early).trans_lt both.1
      have same : file = program.files.size := by
        have := (path more).1
        have := both.1
        omega
      have own := ((brings file).mpr ⟨same, more⟩).2
      exact other (Option.some.inj (both.2.symm.trans own))
  refine ⟨fun k known => ?_, fun place => ?_, fun k known => ?_, fun k file brought => ?_,
    fun k known closed file => ?_⟩
  · rcases cases_ k known with early | rfl
    · rw [old k early, finds.resolved k early, unrolling.resolution grows early]
    · rw [last, resolved]
  · rw [read, finds.read]
    constructor
    · rintro (⟨k, known, at_⟩ | at_)
      · exact ⟨k, known.trans_le grows.includeCount, (located k known place).mpr at_⟩
      · exact ⟨_, by omega, at_⟩
    · rintro ⟨k, known, at_⟩
      rcases cases_ k known with early | rfl
      · exact .inl ⟨k, early, (located k early place).mp at_⟩
      · exact .inr at_
  · rcases cases_ k known with early | rfl
    · simp only [before k _ early.ne]
      rw [finds.first k early]
      refine exists_congr fun place => and_congr (located k early place).symm ?_
      exact forall₂_congr fun j less => not_congr (located j (less.trans early) place).symm
    · simp only [brings, exists_eq_left, first]
      refine exists_congr fun place => and_congr_right fun _ => ?_
      rw [finds.read, not_exists]
      refine forall_congr' fun j => ?_
      rw [not_and]
      exact forall_congr' fun less => not_congr (located j less place).symm
  · by_cases own : k = program.includes.size
    · subst own
      obtain ⟨rfl, more⟩ := (brings file).mp brought
      refine ⟨?_, fun other again => ((brings other).mp again).1⟩
      rw [last, (path more).2.2]
    · rw [before k file own] at brought
      obtain ⟨same, alone⟩ := finds.single k file brought
      refine ⟨?_, fun other again => alone other ((before k other own).mp again)⟩
      rw [old k (unrolling.nested.files file k brought.1 brought.2), grows.file file brought.1]
      exact same
  · rcases cases_ k known with early | rfl
    · rw [old k early, before k file early.ne]
      exact finds.filled k early (fun open_ => closed (shut open_)) file
    · rw [last, empty]
      refine iff_of_false (fun found => by cases found) fun brought => ?_
      exact closed (path ((brings file).mp brought).2).2.1

/-- The directive of the header that is left gets the file that it brought in, which is the only one to name it. -/
theorem Finds.fill {k file : Nat} (fills : Fills k file program later) (brought : program.Brings k file)
    (shut : ∀ j ∈ pending, j = k ∨ j ∈ pending') : later.Finds files search places pending' := by
  refine finds.congr fills.files fills.includes (fun j => ?_) (fun j _ => fills.resolution j)
    fun j old closed other => ?_
  · rw [fills.inclusion]
    split <;> rfl
  · rw [fills.inclusion]
    split
    · next own =>
      rw [own]
      exact ⟨fun same => Option.some.inj same ▸ brought,
        fun again => congrArg some ((finds.single _ _ again).2 _ brought)⟩
    · next away => exact finds.filled j old (fun open_ => (shut j open_).elim away closed) other

/-- With no header open every entry is filled, so of two directives that reach a place the first one has the file. -/
theorem Finds.readsOnce (unrolling : program.Unrolling []) (none : pending = []) : program.ReadsOnce files search := by
  subst none
  have filled : ∀ k : Nat, k < program.includes.size → ∀ file, (program.inclusion k).file = some file ↔
      program.Brings k file :=
    fun k known => finds.filled k known List.not_mem_nil
  have bound : ∀ {k file : Nat}, program.Brings k file → k < program.includes.size :=
    fun brought => unrolling.nested.files _ _ brought.1 brought.2
  -- A directive that brings in a file is the first one to reach its place.
  have fresh : ∀ {j k file : Nat} {place : Place}, program.Brings k file → program.Locates files k place → j < k →
      ¬program.Locates files j place := by
    intro j k file place brought located less
    obtain ⟨own, at_, none⟩ := (finds.first k (bound brought)).mp ⟨file, brought⟩
    rw [at_.unique located]
    exact none j less
  refine ⟨unrolling.ordered, finds.resolved, fun k known => ?_, fun j k place less known early late => ?_,
    fun k file known => filled k known file, fun file k inside named => ?_⟩
  · rw [← finds.first k known, Option.isSome_iff_exists]
    exact exists_congr (filled k known)
  · cases found : (program.inclusion k).file with
    | none => rfl
    | some file => exact absurd early (fresh ((filled k known file).mp found) late less)
  · have brought : program.Brings k file := ⟨inside, named⟩
    obtain ⟨place, located, -⟩ := (finds.first k (bound brought)).mp ⟨file, brought⟩
    obtain ⟨path, single⟩ := finds.single k file brought
    have at_ : files.locate (program.file file).path = .ok place := by
      obtain ⟨own, resolved, located⟩ := located
      cases path.symm.trans resolved
      exact located
    refine ⟨place, located, at_, fun other otherInside header same => ?_⟩
    obtain ⟨later, otherNamed⟩ := Option.isSome_iff_exists.mp header
    have again : program.Brings later other := ⟨otherInside, otherNamed⟩
    have reached : program.Locates files later place := ⟨_, (finds.single later other again).1, same⟩
    rcases Nat.lt_trichotomy k later with less | rfl | less
    · exact absurd located (fresh again reached less)
    · exact single other again
    · exact absurd reached (fresh brought located less)

end Finds

end Program

section Directive

variable {files : FileSystem} {search : SearchPath} {frame : Frame} {item : Surface.Item} {draft later : Draft}
  {pending pending' outer : List Nat} {kind : ItemKind} {header : String} {system : Bool}

theorem Frame.resolution {program : Program} {entry : Inclusion} {k : Nat} (same : program.inclusion k = entry)
    (spelled : entry.spelled = header) (angled : entry.system = system)
    (place : (program.file (program.item entry.item).file).path = (draft.program.file frame.file).path) :
    program.resolution files search k =
      ((frame.opening item draft).draft.found? files search header system).map Prod.fst := by
  rw [Program.resolution, same, spelled, angled, place, Draft.found?]
  split <;> rfl

namespace Program

variable (finds : draft.program.Finds files search draft.read pending) (unrolling : draft.program.Unrolling outer)
include finds unrolling

/-- A directive that reads nothing reaches no place, or one that was read before. -/
theorem Finds.unread (unread : (frame.opening item draft).draft.header? files search header system = none)
    (added : draft.program.Added ⟨frame.file, item.extent.inFile frame.file, kind⟩ later.program)
    (includes : later.program.includes = draft.program.includes.push
      ⟨header, system, ((frame.opening item draft).draft.found? files search header system).map Prod.fst, none,
        (draft.program.file frame.file).includedBy, draft.program.items.size⟩) :
    later.program.Finds files search draft.read pending := by
  have last : later.program.inclusion draft.program.includes.size = ⟨header, system,
      ((frame.opening item draft).draft.found? files search header system).map Prod.fst, none,
      (draft.program.file frame.file).includedBy, draft.program.items.size⟩ := by
    simp [Program.inclusion, includes]
  have seen : ∀ place, later.program.Locates files draft.program.includes.size place → place ∈ draft.read := by
    rintro place ⟨path, resolved, located⟩
    rw [last] at resolved
    obtain ⟨⟨path, document⟩, found, rfl⟩ := Option.map_eq_some_iff.mp resolved
    -- Its `draft.read` is that of the opening; against the goal's the draft would be unfolded.
    have before := Drafting.mem_read_of_found unread found located
    exact before
  have sources : ¬draft.program.files.size < later.program.files.size := by simp [added.files]
  refine finds.add unrolling added.extends includes ?_ rfl (fun place => (or_iff_left_of_imp (seen place)).symm)
    (fun file => ?_) ?_ (fun more => absurd more sources) (List.Subset.refl _)
  · rw [Frame.resolution last rfl rfl]
    rw [added.last, Program.file, added.files, ← Program.file]
  · refine iff_of_false (fun brought => ?_) fun both => sources both.2
    rw [Brings, Program.file, added.files, ← Program.file] at brought
    exact absurd (unrolling.nested.files file _ brought.1 brought.2) (Nat.lt_irrefl _)
  · refine iff_of_false sources ?_
    rintro ⟨place, at_, fresh⟩
    exact fresh (seen place at_)

/-- A directive that reads a header is the first one to reach its place, and stays open until the header is left. -/
theorem Finds.entered {path : String} {document : Document} {place : Place}
    (inside : frame.file < draft.program.files.size)
    (found : (frame.opening item draft).draft.found? files search header system = some (path, document))
    (located : files.locate path = .ok place) (fresh : place ∉ draft.read)
    (opens : draft.program.Opens ⟨frame.file, item.extent.inFile frame.file, .other⟩
      ⟨header, system, some path, none, (draft.program.file frame.file).includedBy, draft.program.items.size⟩
      ⟨path, document.text, some draft.program.includes.size⟩ later.program) :
    later.program.Finds files search (place :: draft.read) (draft.program.includes.size :: pending) := by
  have last := opens.lastEntry
  have source := opens.lastFile
  have grows := opens.extends
  have places : ∀ other, later.program.Locates files draft.program.includes.size other ↔ other = place := by
    intro other
    simp only [Locates, last, Option.some.injEq, exists_eq_left', located, Except.ok.injEq, eq_comm]
  have count : later.program.files.size = draft.program.files.size + 1 := by simp [opens.files]
  have more : draft.program.files.size < later.program.files.size := by omega
  refine finds.add unrolling grows opens.includes ?_ rfl (fun other => ?_) (fun file => ⟨fun brought => ?_, ?_⟩) ?_
    (fun _ => ⟨count, List.mem_cons_self, ?_⟩) (List.subset_cons_self _ _)
  · rw [Frame.resolution last rfl rfl, found]
    · rfl
    · rw [opens.last, grows.file _ inside]
  · rw [places, List.mem_cons, or_comm]
  · refine ⟨?_, more⟩
    by_contra other
    have early : file < draft.program.files.size := by
      have := brought.1
      omega
    have named := brought.2
    rw [grows.file file early] at named
    exact absurd (unrolling.nested.files file _ early named) (Nat.lt_irrefl _)
  · rintro ⟨rfl, -⟩
    exact ⟨more, congrArg SourceFile.includedBy source⟩
  · exact iff_of_true more ⟨place, (places place).mpr rfl, fresh⟩
  · rw [source]

end Program

end Directive

namespace Tour

variable {files : FileSystem} {search : SearchPath} {before after : Tour}

def Finds (files : FileSystem) (search : SearchPath) (tour : Tour) : Prop :=
  tour.draft.program.Finds files search tour.draft.read (tour.frames.filterMap Frame.inc)

/-- The step: each directive takes its place in the account when it is entered, and its file when the header is left. -/
theorem Finds.step (step : Step files search before after) (unrolls : before.Unrolls)
    (finds : before.Finds files search) : after.Finds files search := by
  obtain ⟨_, -, unrolling⟩ := unrolls.unrolling
  cases step with
  | @enter frame stack openings draft after item rest kind next enters =>
    have added := enters.added
    have plain (same : after.program.includes = draft.program.includes) :
        (after.setKind draft.program.items.size kind).program.Finds files search draft.read
          ((frame :: stack).filterMap Frame.inc) := by
      have entry : ∀ k, (after.setKind draft.program.items.size kind).program.inclusion k = draft.program.inclusion k :=
        fun k => by rw [Program.inclusion, Program.inclusion, ← same]; rfl
      refine Program.Finds.congr finds added.files (congrArg Array.size same)
        (fun k => congrArg Inclusion.resolved (entry k))
        (fun k => unrolling.resolution added.extends) fun k known shut file => ?_
      rw [entry k]
      exact Program.Finds.filled finds k known shut file
    have read : (after.setKind draft.program.items.size kind).read = draft.read := enters.read_eq
    unfold Finds
    rw [read]
    cases enters with
    | code => exact plain (frame.opening item draft).after_sameTables.includes
    | directive | other => exact plain rfl
    | inclusion form unread => exact Program.Finds.unread finds unrolling unread added rfl
  | @header frame stack openings draft reading item rest header path system document next form read =>
    have opens := Drafting.header_opens read
    obtain ⟨inside, -⟩ := unrolls.frames frame List.mem_cons_self
    obtain ⟨found, place, located, fresh, rfl⟩ := Drafting.found_of_header read
    exact Program.Finds.entered finds unrolling inside found located fresh opens
  | @leave inner outer stack openings draft host done met =>
    obtain ⟨inc, -, fills⟩ := unrolls.leaves met
    obtain ⟨inside, includedBy⟩ := unrolls.frames inner List.mem_cons_self
    refine Program.Finds.fill finds fills ⟨inside, includedBy.trans inc⟩ fun j open_ => ?_
    rw [List.filterMap_cons_some inc] at open_
    exact List.mem_cons.mp open_

section Unique

/-- The form of an item decides how it is entered. -/
theorem enters_unique {opening : Opening} {kind kind' : ItemKind} {draft draft' : Draft}
    (left : opening.Enters files search kind draft) (right : opening.Enters files search kind' draft') :
    kind = kind' ∧ draft = draft' := by
  cases left with
  | code isCode members =>
    cases right with
    | code _ members' => exact ⟨members.trans members'.symm, rfl⟩
    | directive isDirective => simp [Surface.Form.macro_of_isCode isCode] at isDirective
    | inclusion form | other form => simp [form, Surface.Form.isCode] at isCode
  | directive isDirective =>
    cases right with
    | code isCode => simp [Surface.Form.macro_of_isCode isCode] at isDirective
    | directive => exact ⟨rfl, rfl⟩
    | inclusion form | other form => simp [form, Surface.Form.macro?] at isDirective
  | inclusion form =>
    cases right with
    | code isCode => simp [form, Surface.Form.isCode] at isCode
    | directive isDirective => simp [form, Surface.Form.macro?] at isDirective
    | inclusion form' =>
      cases form.symm.trans form'
      exact ⟨rfl, rfl⟩
    | other form' => cases form.symm.trans form'
  | other form =>
    cases right with
    | code isCode => simp [form, Surface.Form.isCode] at isCode
    | directive isDirective => simp [form, Surface.Form.macro?] at isDirective
    | inclusion form' => cases form.symm.trans form'
    | other => exact ⟨rfl, rfl⟩

theorem header_of_enters {opening : Opening} {kind : ItemKind} {draft : Draft} {header : String} {system : Bool}
    (enters : opening.Enters files search kind draft) (form : opening.item.form = .inclusion header system) :
    opening.draft.header? files search header system = none := by
  cases enters with
  | code isCode => rw [form] at isCode; cases isCode
  | directive isDirective => rw [form] at isDirective; cases isDirective
  | inclusion form' unread =>
    cases form.symm.trans form'
    exact unread
  | other form' => cases form.symm.trans form'

/-- What the frame on top has left, and whether its next header was read before, decides the step. -/
theorem step_unique : Relator.RightUnique (Step files search) := by
  intro tour left right first second
  cases first with
  | enter next enters =>
    cases second with
    | enter next' enters' =>
      cases next.symm.trans next'
      obtain ⟨rfl, rfl⟩ := enters_unique enters enters'
      rfl
    | header next' form read =>
      cases next.symm.trans next'
      cases (header_of_enters enters form).symm.trans read
    | leave done => cases next.symm.trans done
  | header next form read =>
    cases second with
    | enter next' enters =>
      cases next.symm.trans next'
      cases (header_of_enters enters form).symm.trans read
    | header next' form' read' =>
      cases next.symm.trans next'
      cases form.symm.trans form'
      cases read.symm.trans read'
      rfl
    | leave done => cases next.symm.trans done
  | leave done met =>
    cases second with
    | enter next => cases next.symm.trans done
    | header next => cases next.symm.trans done
    | leave _ met' =>
      cases met.symm.trans met'
      rfl

/-- Two runs that end in one frame with nothing left go the same way, so they leave the same draft. -/
theorem Steps.eq_of_done {tour : Tour} {frame : Frame} {openings openings' : List Opening} {draft draft' : Draft}
    (done : frame.rest = []) (left : Steps files search tour ⟨[frame], openings, draft⟩)
    (right : Steps files search tour ⟨[frame], openings', draft'⟩) : draft = draft' := by
  have last : ∀ {openings draft after}, Steps files search ⟨[frame], openings, draft⟩ after → after.draft = draft := by
    intro openings draft after steps
    rcases steps.cases_head with rfl | ⟨_, step, -⟩
    · rfl
    · cases step with
      | enter next | header next => cases next.symm.trans done
  rcases left.total_of_right_unique step_unique right with steps | steps
  · exact (last steps).symm
  · exact last steps

end Unique

end Tour

section Unit

variable (files : FileSystem) (search : SearchPath) (path : String) (document : Document)

theorem Tour.start_finds : (Tour.start path document).Finds files search := by
  refine ⟨?_, ?_, ?_, fun k file brought => ?_, ?_⟩
  rotate_left 3
  · obtain rfl : file = 0 := by simpa [start, Program.addFile] using brought.1
    cases brought.2
  all_goals simp [start, Program.addFile]

/-- The run: what each step keeps holds of the unit, where no header is open. -/
theorem Program.ofDocument_readsOnce : (Program.ofDocument files search path document).ReadsOnce files search := by
  have steps : ∀ {before after : Tour}, Tour.Step files search before after → before.Unrolls ∧
      before.Finds files search → after.Unrolls ∧ after.Finds files search :=
    fun step both => ⟨both.1.step step, both.2.step step both.1⟩
  obtain ⟨draft, ⟨unrolls, finds⟩, built⟩ := Program.exists_tour files search
    ⟨Tour.start_unrolls path document, Tour.start_finds files search path document⟩ steps
  obtain ⟨pending, shape, unrolling⟩ := unrolls.unrolling
  obtain rfl : pending = [] := by cases pending <;> simp_all
  have once := Program.Finds.readsOnce finds unrolling rfl
  rw [built]
  exact ⟨once.ordered, once.resolved, once.first, once.repeated, once.headers, once.distinct⟩

end Unit

/-- Unrolled more often than the set has files, entering a file never reaches what stands at the bottom, and the unit
has each header once. -/
theorem headers_read_once (files : FileSystem) (search : SearchPath) (path : String) (document : Document) :
    (∀ (enter : String → Document → Option IncludeId → Drafting (Option FileId)) (depth : Nat),
      files.files.length < depth →
        (((Drafting.fileWith files search)^[depth] enter path document none).run {}).2.program.finish =
          Program.ofDocument files search path document) ∧
      (Program.ofDocument files search path document).ReadsOnce files search := by
  refine ⟨fun enter depth enough => ?_, Program.ofDocument_readsOnce files search path document⟩
  obtain ⟨inner, simulates⟩ := Drafting.iterate_fileWith_simulates enter depth
  have few : ({} : Draft).unread files < files.files.length + 1 := Draft.unread_empty files
  have left := (simulates path document none none [] [] {} (few.trans_le enough)).2
  have right :=
    (Drafting.enterFile_simulates files search (files.files.length + 1) path document none none [] [] {} few).2
  exact congrArg (fun draft : Draft => draft.program.finish) (Tour.Steps.eq_of_done rfl left right)

/-- Two headers that include each other and themselves under other spellings: from the root, through the directory above
and through a link. -/
def circularHeaders : FileSystem :=
  ⟨[(["work", "a.h"], .document (Written.document [("", .inclusion "\"./b.h\""), ("", .inclusion "\"/work/a.h\"")])),
    (["work", "b.h"], .document (Written.document [("", .inclusion "\"../work/a.h\""), ("", .inclusion "\"c.h\"")])),
    (["work", "c.h"], .link "/work/b.h")], ["work"]⟩

def circularMain : Document :=
  Written.document [("", .inclusion "\"a.h\""), ("", .inclusion "\"b.h\""), ("", .inclusion "\"missing.h\"")]

set_option maxRecDepth 10000 in
theorem headers_read_once_circular :
    ((Program.ofDocument circularHeaders ⟨[]⟩ "unit.c" circularMain).includes.toList.map fun entry =>
      (entry.resolved, entry.file)) = [(some "a.h", some 1), (some "./b.h", some 2), (some "./../work/a.h", none),
        (some "./c.h", none), (some "/work/a.h", none), (some "b.h", none), (none, none)] ∧
    circularHeaders.files.length < 4 ∧
    (((Drafting.fileWith circularHeaders ⟨[]⟩)^[4] (fun _ _ _ => pure (some 7)) "unit.c" circularMain
      none).run {}).2.program.finish = Program.ofDocument circularHeaders ⟨[]⟩ "unit.c" circularMain ∧
    (Program.ofDocument circularHeaders ⟨[]⟩ "unit.c" circularMain).ReadsOnce circularHeaders ⟨[]⟩ := by
  have once := headers_read_once circularHeaders ⟨[]⟩ "unit.c" circularMain
  have enough : circularHeaders.files.length < 4 := by decide
  exact ⟨by decide +kernel, enough, once.1 _ 4 enough, once.2⟩

end Excerpt
