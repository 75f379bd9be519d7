import Excerpt.Proofs.Draft.Files
import Mathlib.Logic.Function.Iterate
import Mathlib.Logic.Relation

/-!
Reading a unit, one item at a time. A file that is being read is a frame. A directive whose header is read puts a frame
on top of that of its own file, and the frame is left when all its items are entered.
-/

namespace Excerpt

def Extent.inFile (extent : Extent) (file : FileId) : Span :=
  ⟨file, extent.start, extent.stop⟩

def Draft.openItem (draft : Draft) (file : FileId) (host : Extent) : Draft :=
  { draft with
    program := draft.program.addItem file (host.inFile file) .other
    file
    item := draft.program.items.size
    span := host.inFile file
    function := none }

/-- An item of a document as it is entered. -/
structure Opening where
  document : Document
  item : Surface.Item
  /-- The draft in which the form of the item is about to be entered. -/
  draft : Draft

namespace Surface.Form

def isCode : Form → Bool
  | .function .. => true
  | .declaration _ => true
  | .other => true
  | _ => false

def macro? : Form → Option (String × MacroKind)
  | .define name params body => some (name, .define params body (Draft.replacementNames name params body))
  | .undef name => some (name, .undef)
  | _ => none

end Surface.Form

namespace Opening

variable (opening : Opening)

def uses : List MacroUse :=
  if opening.item.form.isCode then opening.draft.usesIn opening.draft.span else []

def start : Draft :=
  { opening.draft with program := opening.uses.foldl Program.addUse opening.draft.program }

def after : Draft :=
  ((Drafting.codeOf opening.item.form).run opening.start).2

def macros : Array MacroDirective :=
  match opening.item.form.macro? with
  | some (name, kind) =>
    opening.draft.program.macros.push
      { name, kind
        span := opening.draft.span
        pos := ⟨opening.draft.item, opening.draft.span.start⟩
        item := opening.draft.item }
  | none => opening.draft.program.macros

/-- What entering an item that reads no header leaves, and the kind that it gives the item. -/
inductive Enters (files : FileSystem) (search : SearchPath) (opening : Opening) : ItemKind → Draft → Prop
  | code {kind : ItemKind} (isCode : opening.item.form.isCode = true)
      (members : kind = match opening.after.declaredSince opening.draft.program.decls.size with
        | [] => .other
        | members => .decls members) : Enters files search opening kind opening.after
  | directive (isDirective : opening.item.form.macro?.isSome = true) :
      Enters files search opening (.directive opening.draft.program.macros.size)
        { opening.draft with program := { opening.draft.program with macros := opening.macros } }
  | inclusion {header : String} {system : Bool} (form : opening.item.form = .inclusion header system)
      (unread : opening.draft.header? files search header system = none) :
      Enters files search opening (.inclusion opening.draft.program.includes.size)
        { opening.draft with
          program := opening.draft.program.addInclude
            ⟨header, system, (opening.draft.found? files search header system).map Prod.fst, none,
              (opening.draft.program.file opening.draft.file).includedBy, opening.draft.item⟩ }
  | other (form : opening.item.form = .directive) : Enters files search opening .other opening.draft

end Opening

namespace Drafting

open Surface

section Openings

variable (files : FileSystem) (search : SearchPath)

/-- An item, and those of the header that it brings in. `inner` lists the items of a file. -/
def itemOpenings (inner : String → Document → Option IncludeId → Draft → List Opening) (document : Document)
    (file : FileId) (item : Surface.Item) (draft : Draft) : List Opening :=
  let opened := draft.openItem file item.extent
  ⟨document, item, opened⟩ ::
    match item.form with
    | .inclusion header system =>
      match opened.header? files search header system with
      | some (path, document, reading) => inner path document (some opened.program.includes.size) reading
      | none => []
    | _ => []

def itemsOpenings (enter : String → Document → Option IncludeId → Drafting (Option FileId))
    (inner : String → Document → Option IncludeId → Draft → List Opening) (document : Document) (file : FileId) :
    List Surface.Item → Draft → List Opening
  | [], _ => []
  | item :: rest, draft =>
    itemOpenings files search inner document file item draft ++
      itemsOpenings enter inner document file rest ((enterItem files search enter file item).run draft).2

def fileOpenings : Nat → String → Document → Option IncludeId → Draft → List Opening
  | 0, _, _, _, _ => []
  | depth + 1, path, document, includedBy, draft =>
    itemsOpenings files search (enterFile files search depth) (fileOpenings depth) document draft.program.files.size
      (itemsOf document.text document.tree)
      { draft with program := draft.program.addFile path document.text includedBy }

/-- Enters a file. `enter` reads the headers in it. -/
def fileWith (enter : String → Document → Option IncludeId → Drafting (Option FileId)) (path : String)
    (document : Document) (includedBy : Option IncludeId) : Drafting (Option FileId) := do
  let draft ← get
  let file := draft.program.files.size
  modify fun draft => { draft with program := draft.program.addFile path document.text includedBy }
  enterItems files search enter file (itemsOf document.text document.tree)
  return some file

end Openings

end Drafting

/-- The items of a unit, its headers included, in the order in which they are entered. -/
def Program.openingsOf (files : FileSystem) (search : SearchPath) (path : String) (document : Document) :
    List Opening :=
  Drafting.fileOpenings files search (files.files.length + 1) path document none {}

structure Frame where
  file : FileId
  /-- The draft in which the directive of the file is entered. -/
  host : Option Draft
  document : Document
  rest : List Surface.Item

def Frame.opening (frame : Frame) (item : Surface.Item) (draft : Draft) : Opening :=
  ⟨frame.document, item, draft.openItem frame.file item.extent⟩

/-- A unit while it is read: the open files from the inside out, and the items so far. -/
structure Tour where
  frames : List Frame
  openings : List Opening
  draft : Draft

namespace Draft

def setKind (draft : Draft) (id : ItemId) (kind : ItemKind) : Draft :=
  { draft with program := draft.program.setItemKind id kind }

def leave (draft host : Draft) (file : FileId) : Draft :=
  { draft with
    program := (draft.program.setIncludedFile host.program.includes.size file).setItemKind host.item
      (.inclusion host.program.includes.size)
    file := host.file
    item := host.item
    span := host.span
    function := host.function }

/-- Number of files that were not read as headers. -/
def unread (files : FileSystem) (draft : Draft) : Nat :=
  (files.files.filter fun file => !draft.read.contains file.1).length

end Draft

namespace Tour

variable (files : FileSystem) (search : SearchPath)

/-- One item is entered, or a header is left. -/
inductive Step : Tour → Tour → Prop
  | enter {frame : Frame} {stack : List Frame} {openings : List Opening} {draft after : Draft} {item : Surface.Item}
      {rest : List Surface.Item} {kind : ItemKind} (next : frame.rest = item :: rest)
      (enters : (frame.opening item draft).Enters files search kind after) :
      Step ⟨frame :: stack, openings, draft⟩
        ⟨{ frame with rest } :: stack, openings ++ [frame.opening item draft],
          after.setKind draft.program.items.size kind⟩
  | header {frame : Frame} {stack : List Frame} {openings : List Opening} {draft reading : Draft} {item : Surface.Item}
      {rest : List Surface.Item} {header path : String} {system : Bool} {document : Document}
      (next : frame.rest = item :: rest) (form : item.form = .inclusion header system)
      (read : (frame.opening item draft).draft.header? files search header system = some (path, document, reading)) :
      Step ⟨frame :: stack, openings, draft⟩
        ⟨⟨draft.program.files.size, some (frame.opening item draft).draft, document,
            Surface.itemsOf document.text document.tree⟩ :: { frame with rest } :: stack,
          openings ++ [frame.opening item draft],
          { reading with program := reading.program.addFile path document.text (some draft.program.includes.size) }⟩
  | leave {inner outer : Frame} {stack : List Frame} {openings : List Opening} {draft host : Draft}
      (done : inner.rest = []) (met : inner.host = some host) :
      Step ⟨inner :: outer :: stack, openings, draft⟩ ⟨outer :: stack, openings, draft.leave host inner.file⟩

def Steps : Tour → Tour → Prop :=
  Relation.ReflTransGen (Step files search)

def start (path : String) (document : Document) : Tour :=
  ⟨[⟨0, none, document, Surface.itemsOf document.text document.tree⟩], [],
    { program := ({} : Program).addFile path document.text none }⟩

end Tour

section Unread

variable {files : FileSystem} {search : SearchPath} {draft later : Draft}

theorem Draft.unread_le (kept : draft.read ⊆ later.read) : later.unread files ≤ draft.unread files := by
  apply List.Sublist.length_le
  apply List.monotone_filter_right
  intro file fresh
  simp only [List.contains_eq_mem, Bool.not_eq_true', decide_eq_false_iff_not] at fresh ⊢
  exact fun seen => fresh (kept seen)

/-- A header that is read takes a file of the set away from those that are still to be read. -/
theorem Draft.unread_lt {place : Place} {content : FileContent} (member : (place, content) ∈ files.files)
    (fresh : place ∉ draft.read) (read : later.read = place :: draft.read) :
    later.unread files < draft.unread files := by
  have narrower : (files.files.filter fun file => !later.read.contains file.1) =
      (files.files.filter fun file => !draft.read.contains file.1).filter fun file => file.1 ≠ place := by
    rw [List.filter_filter]
    apply List.filter_congr
    intro file _
    by_cases same : file.1 = place <;> simp [read, same]
  unfold unread
  rw [narrower, List.length_filter_lt_length_iff_exists]
  exact ⟨(place, content), by simp [member, fresh], by simp⟩

theorem Opening.Enters.read_eq {opening : Opening} {kind : ItemKind} (enters : opening.Enters files search kind later) :
    later.read = opening.draft.read := by
  cases enters with
  | code => exact (Drafting.codeOf_steps opening.item.form opening.start).sameLayout.read
  | directive | inclusion | other => rfl

/-- Along a run the files still to be read never become more. -/
theorem Tour.Steps.unread_le {before after : Tour} (steps : Steps files search before after) :
    after.draft.unread files ≤ before.draft.unread files := by
  induction steps with
  | refl => exact Nat.le_refl _
  | tail _ step ih =>
    refine Nat.le_trans (Draft.unread_le ?_) ih
    cases step with
    | enter _ enters =>
      exact List.Subset.trans (enters.read_eq ▸ List.Subset.refl _) (List.Subset.refl _)
    | header _ _ read =>
      obtain ⟨-, place, -, -, rfl⟩ := Drafting.found_of_header read
      exact List.subset_cons_self _ _
    | leave => exact List.Subset.refl _

end Unread

namespace Drafting

open Surface

section Steps

variable {files : FileSystem} {search : SearchPath}
  {enter : String → Document → Option IncludeId → Drafting (Option FileId)}

/-- Code is entered with its macro uses recorded first, and gives the item its declarations at file scope. -/
theorem enterCode_enters {opening : Opening} (isCode : opening.item.form.isCode = true) :
    Gives (enterCode (codeOf opening.item.form)) opening.draft (opening.Enters files search) := by
  have start : opening.start = { opening.draft with
      program := (opening.draft.usesIn opening.draft.span).foldl Program.addUse opening.draft.program } := by
    rw [Opening.start, Opening.uses, if_pos isCode]
  have size := congrArg Array.size (addUses_sameNames opening.draft (opening.draft.usesIn opening.draft.span)).decls
  have read : Gives (codeOf opening.item.form) opening.start fun _ after => after = opening.after := rfl
  simp only [enterCode, gives_bind, gives_get, gives_modify]
  rw [size, ← start]
  refine read.mono fun _ after same => ?_
  subst same
  split
  · next none =>
    refine .code isCode ?_
    rw [none]
    rfl
  · next nonempty =>
    refine .code isCode ?_
    split
    · next none => exact absurd none nonempty
    · rfl

theorem enterForm_enters (opening : Opening) (alone : ∀ header system, opening.item.form = .inclusion header system →
      opening.draft.header? files search header system = none) :
    Gives (enterForm files search enter opening.item.form) opening.draft (opening.Enters files search) := by
  obtain ⟨document, ⟨extent, form⟩, draft⟩ := opening
  have code := @enterCode_enters files search ⟨document, ⟨extent, form⟩, draft⟩
  cases form with
  | inclusion header system =>
    refine gives_enterInclusion (fun unread => .inclusion rfl unread) fun path document opened found => ?_
    rw [alone header system rfl] at found
    cases found
  | define | undef => exact .directive rfl
  | directive => exact .other rfl
  | function | declaration | other => exact code rfl

/-- Entering a file while fewer than `depth` files are unread goes through its items. -/
def Simulates (files : FileSystem) (search : SearchPath) (depth : Nat)
    (enter : String → Document → Option IncludeId → Drafting (Option FileId))
    (inner : String → Document → Option IncludeId → Draft → List Opening) : Prop :=
  ∀ path document inc host stack openings (draft : Draft), draft.unread files < depth →
    Gives (enter path document inc) draft fun file after => file = some draft.program.files.size ∧
      Tour.Steps files search
        ⟨⟨draft.program.files.size, host, document, itemsOf document.text document.tree⟩ :: stack, openings,
          { draft with program := draft.program.addFile path document.text inc }⟩
        ⟨⟨draft.program.files.size, host, document, []⟩ :: stack, openings ++ inner path document inc draft, after⟩

section Items

variable {inner : String → Document → Option IncludeId → Draft → List Opening} {depth : Nat}
  (simulates : Simulates files search depth enter inner) (frame : Frame) (stack : List Frame)
  (openings : List Opening)
include simulates

/-- The step. A header takes a file away from the unread ones, so entering it has depth left for the headers inside. -/
theorem enterItem_steps {item : Surface.Item} {rest : List Surface.Item} {draft : Draft}
    (next : frame.rest = item :: rest) (few : draft.unread files < depth + 1) :
    Gives (enterItem files search enter frame.file item) draft fun _ after =>
      Tour.Steps files search ⟨frame :: stack, openings, draft⟩ ⟨{ frame with rest } :: stack,
        openings ++ itemOpenings files search inner frame.document frame.file item draft, after⟩ := by
  simp only [enterItem, gives_bind, gives_get, gives_set, gives_modify]
  change Gives (enterForm files search enter item.form) (frame.opening item draft).draft fun kind after =>
    Tour.Steps files search _ ⟨_, _, after.setKind draft.program.items.size kind⟩
  by_cases read : ∃ header system path document reading, item.form = .inclusion header system ∧
      (frame.opening item draft).draft.header? files search header system = some (path, document, reading)
  · obtain ⟨header, system, path, document, reading, form, found⟩ := read
    have listing : itemOpenings files search inner frame.document frame.file item draft =
        frame.opening item draft :: inner path document (some draft.program.includes.size) reading := by
      have same : (draft.openItem frame.file item.extent).header? files search header system =
        some (path, document, reading) := found
      simp only [itemOpenings, form, same]
      rfl
    rw [listing, form, List.append_cons]
    refine gives_enterInclusion (fun none => ?_) fun otherPath other opened again => ?_
    · rw [found] at none
      cases none
    · cases found.symm.trans again
      obtain ⟨named, place, located, fresh, same⟩ := found_of_header found
      obtain ⟨at_, located', member⟩ := FileSystem.locate_of_read (read_eq_ok_of_found named)
      cases located.symm.trans located'
      have fewer : reading.unread files < draft.unread files := Draft.unread_lt member fresh (by rw [same]; rfl)
      have sources : reading.program.files.size = draft.program.files.size := by rw [same]; rfl
      refine (simulates path document (some draft.program.includes.size) (some (frame.opening item draft).draft)
        ({ frame with rest } :: stack) (openings ++ [frame.opening item draft]) reading (by omega)).mono
          fun file closed run => ?_
      obtain ⟨rfl, run⟩ := run
      rw [sources] at run ⊢
      exact (run.head (.header next form found)).tail (.leave rfl rfl)
  · have alone : ∀ header system, item.form = .inclusion header system →
        (frame.opening item draft).draft.header? files search header system = none := by
      intro header system form
      cases found : (frame.opening item draft).draft.header? files search header system with
      | none => rfl
      | some header => exact absurd ⟨_, _, _, _, _, form, found⟩ read
    have listing :
        itemOpenings files search inner frame.document frame.file item draft = [frame.opening item draft] := by
      simp only [itemOpenings]
      split
      · next header system form =>
        have none : (draft.openItem frame.file item.extent).header? files search header system = none :=
          alone header system form
        rw [none]
        rfl
      · rfl
    rw [listing]
    exact (enterForm_enters (frame.opening item draft) alone).mono fun kind after enters => .single (.enter next enters)

/-- The run over the items of one file: the unread files never become more, so the depth suffices for each of them. -/
theorem enterItems_steps (items : List Surface.Item) (draft : Draft) (few : draft.unread files < depth + 1) :
    Gives (enterItems files search enter frame.file items) draft fun _ after =>
      Tour.Steps files search ⟨{ frame with rest := items } :: stack, openings, draft⟩
        ⟨{ frame with rest := [] } :: stack,
        openings ++ itemsOpenings files search enter inner frame.document frame.file items draft, after⟩ := by
  induction items generalizing openings draft with
  | nil =>
    rw [itemsOpenings, List.append_nil]
    exact .refl
  | cons item rest ih =>
    have first := enterItem_steps simulates { frame with rest := item :: rest } stack openings rfl few
    simp only [enterItems, gives_bind, itemsOpenings, ← List.append_assoc]
    exact (ih _ _ (Nat.lt_of_le_of_lt (Tour.Steps.unread_le first) few)).mono fun _ _ second => first.trans second

theorem fileWith_simulates :
    Simulates files search (depth + 1) (fileWith files search enter) fun path document inc draft =>
    itemsOpenings files search enter inner document draft.program.files.size (itemsOf document.text document.tree)
      { draft with program := draft.program.addFile path document.text inc } := by
  intro path document inc host stack openings draft few
  exact ⟨rfl, enterItems_steps simulates ⟨draft.program.files.size, host, document, []⟩ stack openings
    (itemsOf document.text document.tree) { draft with program := draft.program.addFile path document.text inc } few⟩

end Items

/-- However entering a file is cut off below, with more levels than unread files the cut is never reached. -/
theorem iterate_fileWith_simulates (enter : String → Document → Option IncludeId → Drafting (Option FileId))
    (depth : Nat) : ∃ inner, Simulates files search depth ((fileWith files search)^[depth] enter) inner := by
  induction depth with
  | zero => exact ⟨fun _ _ _ _ => [], fun _ _ _ _ _ _ _ few => absurd few (Nat.not_lt_zero _)⟩
  | succ depth ih =>
    obtain ⟨inner, simulates⟩ := ih
    rw [Function.iterate_succ_apply']
    exact ⟨_, fileWith_simulates simulates⟩

theorem enterFile_simulates (files : FileSystem) (search : SearchPath) (depth : Nat) :
    Simulates files search depth (enterFile files search depth) (fileOpenings files search depth) := by
  induction depth with
  | zero => exact fun _ _ _ _ _ _ _ few => absurd few (Nat.not_lt_zero _)
  | succ depth ih => exact fileWith_simulates ih

end Steps

end Drafting

theorem Draft.unread_empty (files : FileSystem) : ({} : Draft).unread files < files.files.length + 1 :=
  Nat.lt_succ_of_le (List.length_filter_le _ _)

/-- What holds before the items of the main file and is kept by each step holds of a unit that was read. -/
theorem Program.exists_tour (files : FileSystem) (search : SearchPath) {path : String} {document : Document}
    {holds : Tour → Prop} (start : holds (Tour.start path document))
    (steps : ∀ {before after}, Tour.Step files search before after → holds before → holds after) :
    ∃ draft, holds ⟨[⟨0, none, document, []⟩], Program.openingsOf files search path document, draft⟩ ∧
      Program.ofDocument files search path document = draft.program.finish := by
  have run := (Drafting.enterFile_simulates files search (files.files.length + 1) path document none none [] [] {}
    (Draft.unread_empty files)).2
  refine ⟨_, ?_, rfl⟩
  exact Relation.ReflTransGen.head_induction_on (motive := fun tour _ => holds tour → holds _) run id
    (fun step _ later held => later (steps step held)) start

namespace Drafting

open Surface

structure Kept (admits : Surface.Item → Prop) (holds : Draft → Prop) : Prop where
  names : ∀ {draft other : Draft}, holds draft → draft.SameNames other → holds other
  code : ∀ (item : Surface.Item) (draft : Draft), admits item → holds draft → draft.function = none →
    draft.span = ⟨draft.file, item.extent.start, item.extent.stop⟩ →
    Gives (codeOf item.form) draft fun _ after => holds after

theorem Kept.ofSteps {holds : Draft → Prop}
    (names : ∀ {draft other : Draft}, holds draft → draft.SameNames other → holds other)
    (steps : ∀ {before after : Draft}, before.Steps after → holds before → holds after) : Kept (fun _ => True) holds :=
  ⟨names, fun item draft _ held _ _ => (codeOf_steps item.form draft).mono fun _ _ taken => steps taken held⟩

def Admitted (admits : Surface.Item → Prop) (document : Document) : Prop :=
  ∀ item ∈ itemsOf document.text document.tree, admits item

section Kept

variable {admits : Surface.Item → Prop} {holds : Draft → Prop} (kept : Kept admits holds) {files : FileSystem}
  {search : SearchPath}
include kept

/-- Entering an item keeps what its code keeps, since all else leaves the names as they are. -/
theorem Kept.enter {opening : Opening} {kind : ItemKind} {after : Draft} (admitted : admits opening.item)
    (outside : opening.draft.function = none)
    (here : opening.draft.span = ⟨opening.draft.file, opening.item.extent.start, opening.item.extent.stop⟩)
    (enters : opening.Enters files search kind after) (held : holds opening.draft) : holds after := by
  cases enters with
  | code =>
    have started := kept.names held (addUses_sameNames opening.draft opening.uses)
    exact kept.code opening.item opening.start admitted started outside here
  | directive | inclusion | other => exact kept.names held ⟨rfl, rfl, rfl, rfl, rfl, rfl⟩

section Headers

variable {enter : String → Document → Option IncludeId → Drafting (Option FileId)}
  (headers : ∀ path document inclusion draft,
  (∃ place, (place, FileContent.document document) ∈ files.files) → holds draft →
    Gives (enter path document inclusion) draft fun _ after => holds after)
include headers

theorem enterForm_keeps {opening : Opening} (admitted : admits opening.item) (outside : opening.draft.function = none)
    (here : opening.draft.span = ⟨opening.draft.file, opening.item.extent.start, opening.item.extent.stop⟩)
    (held : holds opening.draft) :
    Gives (enterForm files search enter opening.item.form) opening.draft fun _ after => holds after := by
  by_cases directive : ∃ header system, opening.item.form = .inclusion header system
  · obtain ⟨header, system, form⟩ := directive
    rw [form]
    refine gives_enterInclusion (fun _ => kept.names held ⟨rfl, rfl, rfl, rfl, rfl, rfl⟩)
      fun path document reading read => ?_
    obtain ⟨-, _, -, -, same⟩ := found_of_header read
    have opened : holds reading := kept.names held (same ▸ ⟨rfl, rfl, rfl, rfl, rfl, rfl⟩)
    refine (headers path document _ reading (mem_files_of_header read) opened).mono fun file closed held => ?_
    cases file <;> exact kept.names held ⟨rfl, rfl, rfl, rfl, rfl, rfl⟩
  · refine (enterForm_enters opening fun header system form => absurd ⟨header, system, form⟩ directive).mono ?_
    exact fun _ _ enters => kept.enter admitted outside here enters held

theorem enterItems_keeps (file : FileId) {items : List Surface.Item} (admitted : ∀ item ∈ items, admits item)
    {draft : Draft}
    (held : holds draft) : Gives (enterItems files search enter file items) draft fun _ after => holds after := by
  induction items generalizing draft with
  | nil => exact held
  | cons item rest ih =>
    obtain ⟨first, others⟩ := List.forall_mem_cons.mp admitted
    have opened : holds (draft.openItem file item.extent) := kept.names held ⟨rfl, rfl, rfl, rfl, rfl, rfl⟩
    have entered : Gives (enterItem files search enter file item) draft fun _ after => holds after := by
      simp only [enterItem, gives_bind, gives_get, gives_set, gives_modify]
      let opening : Opening := ⟨default, item, draft.openItem file item.extent⟩
      change Gives (enterForm files search enter opening.item.form) opening.draft fun _ _ => holds _
      exact (enterForm_keeps kept headers first rfl rfl opened).mono fun _ _ held =>
        kept.names held ⟨rfl, rfl, rfl, rfl, rfl, rfl⟩
    simp only [enterItems, gives_bind]
    exact entered.mono fun _ _ held => ih others held

end Headers

theorem enterFile_keeps (all : ∀ place document, (place, FileContent.document document) ∈ files.files →
      Admitted admits document) (depth : Nat) (path : String) {document : Document} (inclusion : Option IncludeId)
    (admitted : Admitted admits document) {draft : Draft} (held : holds draft) :
    Gives (enterFile files search depth path document inclusion) draft fun _ after => holds after := by
  induction depth generalizing path document inclusion draft with
  | zero => exact held
  | succ depth ih =>
    simp only [enterFile, gives_bind, gives_get, gives_modify, gives_pure]
    refine enterItems_keeps kept ?_ _ admitted (kept.names held ⟨rfl, rfl, rfl, rfl, rfl, rfl⟩)
    rintro path document inclusion draft ⟨place, known⟩ held
    exact ih path inclusion (all place document known) held

end Kept

end Drafting

theorem Program.exists_draft_of_kept {admits : Surface.Item → Prop} {holds : Draft → Prop}
    (kept : Drafting.Kept admits holds) (start : holds {}) {files : FileSystem} {search : SearchPath} {path : String}
    {document : Document} (all : ∀ place document, (place, FileContent.document document) ∈ files.files →
      Drafting.Admitted admits document) (admitted : Drafting.Admitted admits document) :
    ∃ draft, holds draft ∧ Program.ofDocument files search path document = draft.program.finish :=
  ⟨_, Drafting.enterFile_keeps kept all (files.files.length + 1) path none admitted start, rfl⟩

end Excerpt
