import Excerpt.Proofs.Data.Sorted
import Excerpt.Proofs.Draft.Openings
import Mathlib.Data.List.Nodup

/-!
A unit is what its items left in it.
-/

namespace Excerpt

namespace Opening

def itemsIn (openings : List Opening) (file : FileId) : List (Document × Surface.Item) :=
  (openings.filter (·.draft.file == file)).map fun opening => (opening.document, opening.item)

theorem itemsIn_append (front back : List Opening) (file : FileId) :
    itemsIn (front ++ back) file = itemsIn front file ++ itemsIn back file := by
  rw [itemsIn, List.filter_append, List.map_append]
  rfl

theorem itemsIn_eq_nil {openings : List Opening} {file : FileId}
    (none : ∀ opening ∈ openings, opening.draft.file ≠ file) : itemsIn openings file = [] := by
  rw [itemsIn, List.map_eq_nil_iff, List.filter_eq_nil_iff]
  intro opening member same
  exact none opening member (beq_iff_eq.mp same)

end Opening

def Frame.itemsLeft (frames : List Frame) (file : FileId) : List (Document × Surface.Item) :=
  (frames.filter (·.file == file)).flatMap fun frame => frame.rest.map (frame.document, ·)

theorem Frame.itemsLeft_cons (frame : Frame) (stack : List Frame) (file : FileId) : itemsLeft (frame :: stack) file =
    (if frame.file = file then frame.rest.map (frame.document, ·) else []) ++ itemsLeft stack file := by
  unfold itemsLeft
  by_cases same : frame.file = file <;> simp [same]

/-- The items of each file are those of one document, and all of them are entered in their order. -/
structure Tour.Lines (known : Document → Prop) (tour : Tour) : Prop where
  frames : ∀ frame ∈ tour.frames, (tour.draft.program.file frame.file).text = frame.document.text
  owners : ∀ opening ∈ tour.openings, opening.draft.file < tour.draft.program.files.size
  headers : ∀ file : Nat, file < tour.draft.program.files.size → ∃ header, known header ∧
    (tour.draft.program.file file).text = header.text ∧
    Opening.itemsIn tour.openings file ++ Frame.itemsLeft tour.frames file =
      (Surface.itemsOf header.text header.tree).map (header, ·)

/-- What the items that were entered say about the unit so far. -/
structure Tour.Traces (tour : Tour) : Prop where
  settled : tour.draft.Settled
  outer : tour.draft.fileScope.Shows tour.draft.program none
  types : tour.draft.program.TypesFormed
  sound : ∀ opening ∈ tour.openings, opening.Sound
  lasts : ∀ opening ∈ tour.openings, opening.Lasts tour.draft.program
  ordered : tour.openings.Pairwise fun first second => first.draft.item < second.draft.item ∧
    first.after.program.decls.size ≤ second.draft.program.decls.size
  items : ∀ id : Nat, id < tour.draft.program.items.size → ∃ opening ∈ tour.openings, opening.draft.item = id
  decls : ∀ id : Nat, id < tour.draft.program.decls.size →
    ∃ opening ∈ tour.openings, opening.draft.program.decls.size ≤ id ∧ id < opening.after.program.decls.size
  uses : ∀ occurrence ∈ tour.draft.program.uses, ∃ opening ∈ tour.openings, occurrence ∈ opening.uses
  relays : Opening.Relays #[] tour.openings tour.draft.program.macros
  ascends : ∀ early late : Nat, early < late → late < tour.draft.program.macros.size →
    (tour.draft.program.directive early).item < (tour.draft.program.directive late).item

namespace Tour

variable {known : Document → Prop} {files : FileSystem} {search : SearchPath} {before after : Tour}

section Lines

theorem itemsIn_opening (openings : List Opening) (frame : Frame) (item : Surface.Item) (draft : Draft)
    (file : FileId) : Opening.itemsIn (openings ++ [frame.opening item draft]) file =
      Opening.itemsIn openings file ++ if frame.file = file then [(frame.document, item)] else [] := by
  rw [Opening.itemsIn_append]
  congr 1
  by_cases same : frame.file = file <;> simp [Opening.itemsIn, Frame.opening, Draft.openItem, same]

theorem items_next (openings : List Opening) {frame : Frame} (stack : List Frame) {item : Surface.Item}
    {rest : List Surface.Item} (next : frame.rest = item :: rest) (draft : Draft) (file : FileId) :
    Opening.itemsIn (openings ++ [frame.opening item draft]) file ++ Frame.itemsLeft
      ({ frame with rest } :: stack) file =
      Opening.itemsIn openings file ++ Frame.itemsLeft (frame :: stack) file := by
  rw [itemsIn_opening, Frame.itemsLeft_cons, Frame.itemsLeft_cons, next]
  by_cases same : frame.file = file <;> simp [same]

variable (all : ∀ place document, (place, FileContent.document document) ∈ files.files → known document)
include all

/-- The step: the items of a file so far and those that are left make up its document, whatever files are open. -/
theorem Lines.step (step : Step files search before after) (unrolls : before.Unrolls) (lines : before.Lines known) :
    after.Lines known := by
  cases step with
  | @enter frame stack openings draft after item rest kind next enters =>
    have added := enters.added
    obtain ⟨inside, -⟩ := unrolls.frames frame List.mem_cons_self
    have source : ∀ id, (after.setKind draft.program.items.size kind).program.file id = draft.program.file id :=
      fun id => by
      rw [Program.file, added.files, ← Program.file]
    refine ⟨fun other member => ?_, fun opening member => ?_, fun file old => ?_⟩
    · rw [source]
      rcases List.mem_cons.mp member with rfl | member
      · exact lines.frames frame List.mem_cons_self
      · exact lines.frames other (List.mem_cons_of_mem _ member)
    · rw [added.files]
      rcases List.mem_append.mp member with member | member
      · exact lines.owners opening member
      · rw [List.mem_singleton.mp member]
        exact inside
    · rw [source, items_next _ _ next]
      exact lines.headers file (added.files ▸ old)
  | @header frame stack openings draft reading item rest header path system document next form read =>
    have opens := Drafting.header_opens read
    have grows := opens.extends
    obtain ⟨place, member⟩ := Drafting.mem_files_of_header read
    obtain ⟨inside, -⟩ := unrolls.frames frame List.mem_cons_self
    refine ⟨List.forall_mem_cons.mpr ⟨?_, fun other member => ?_⟩, fun opening member => ?_, fun file old => ?_⟩
    · exact congrArg SourceFile.text opens.lastFile
    · obtain ⟨at_, same⟩ : other.file < draft.program.files.size ∧
          (draft.program.file other.file).text = other.document.text := by
        rcases List.mem_cons.mp member with rfl | member
        · exact ⟨inside, lines.frames frame List.mem_cons_self⟩
        · exact ⟨(unrolls.frames other (List.mem_cons_of_mem _ member)).1,
            lines.frames other (List.mem_cons_of_mem _ member)⟩
      exact (congrArg SourceFile.text (grows.file _ at_)).trans same
    · rcases List.mem_append.mp member with member | member
      · exact (lines.owners opening member).trans_le grows.fileCount
      · rw [List.mem_singleton.mp member]
        exact inside.trans_le grows.fileCount
    · by_cases early : file < draft.program.files.size
      · obtain ⟨header, isKnown, text, items⟩ := lines.headers file early
        refine ⟨header, isKnown, (congrArg SourceFile.text (grows.file file early)).trans text, ?_⟩
        rw [Frame.itemsLeft_cons, if_neg early.ne', List.nil_append, items_next _ _ next, items]
      · obtain rfl : file = draft.program.files.size := by
          rw [opens.files, Array.size_push] at old
          omega
        refine ⟨document, all place document member, congrArg SourceFile.text opens.lastFile, ?_⟩
        have none : Opening.itemsIn openings draft.program.files.size = [] :=
          Opening.itemsIn_eq_nil fun opening member => (lines.owners opening member).ne
        have left : Frame.itemsLeft (frame :: stack) draft.program.files.size = [] := by
          rw [Frame.itemsLeft, List.filter_eq_nil_iff.mpr, List.flatMap_nil]
          intro other member same
          exact (unrolls.frames other member).1.ne (beq_iff_eq.mp same)
        have others := items_next openings stack next draft draft.program.files.size
        rw [none, left] at others
        obtain ⟨entered, left⟩ := List.append_eq_nil_iff.mp others
        rw [entered, Frame.itemsLeft_cons, if_pos rfl, left]
        simp
  | @leave inner outer stack openings draft host done met =>
    refine ⟨fun frame member => lines.frames frame (List.mem_cons_of_mem _ member), lines.owners, fun file old => ?_⟩
    obtain ⟨header, isKnown, text, items⟩ := lines.headers file old
    refine ⟨header, isKnown, text, ?_⟩
    rw [← items]
    change _ = _ ++ Frame.itemsLeft (inner :: outer :: stack) file
    rw [Frame.itemsLeft_cons inner, done]
    simp

end Lines

section Traces

variable {frame : Frame} {stack frames : List Frame} {openings : List Opening} {draft later : Draft}
  {item : Surface.Item} {kind : ItemKind}

/-- An item is entered between others, where only the scope of the file is open. -/
theorem opening_sound (unrolls : Unrolls ⟨frame :: stack, openings, draft⟩)
    (lines : Lines known ⟨frame :: stack, openings, draft⟩) (traces : Traces ⟨frame :: stack, openings, draft⟩)
    (next : item ∈ frame.rest) : (frame.opening item draft).Sound := by
  obtain ⟨inside, -⟩ := unrolls.frames frame List.mem_cons_self
  refine ⟨traces.settled.congr ⟨rfl, rfl, rfl, rfl, rfl, rfl⟩, traces.outer.mono ?_, traces.types.congr rfl rfl,
    ?_, inside, lines.frames frame List.mem_cons_self, rfl, rfl⟩
  · exact Program.carries_of_decls rfl rfl (.of_eq rfl) fun _ old => ⟨old, rfl⟩
  · obtain ⟨header, -, -, items⟩ := lines.headers frame.file inside
    have left : (frame.document, item) ∈ Frame.itemsLeft (frame :: stack) frame.file := by
      rw [Frame.itemsLeft_cons, if_pos rfl]
      exact List.mem_append_left _ (List.mem_map.mpr ⟨item, next, rfl⟩)
    have listed := List.mem_append_right (Opening.itemsIn openings frame.file) left
    rw [items] at listed
    obtain ⟨other, member, same⟩ := List.mem_map.mp listed
    cases same
    exact member

theorem macros_behind (opening : Opening) {id : Nat} (new : opening.draft.program.macros.size ≤ id)
    (old : id < opening.macros.size) : (opening.macros.getD id default).item = opening.draft.item := by
  unfold Opening.macros at old ⊢
  split at old
  · obtain rfl : id = opening.draft.program.macros.size := by
      rw [Array.size_push] at old
      omega
    simp
  · exact absurd old (Nat.not_lt.mpr new)

/-- An item was entered. It is the last one of the unit, and what it declares is that of its code. -/
structure Entered (frame : Frame) (item : Surface.Item) (draft : Draft) (kind : ItemKind) (later : Draft) : Prop where
  sound : (frame.opening item draft).Sound
  hasKind : (frame.opening item draft).HasKind kind
  grows : draft.program.Extends later.program
  items : later.program.items = draft.program.items.push ⟨frame.file, item.extent.inFile frame.file, kind⟩
  names : (frame.opening item draft).after.SameNames later
  uses : later.program.uses = draft.program.uses ++ (frame.opening item draft).uses
  macros : later.program.macros = (frame.opening item draft).macros

section Entered

variable (entered : Entered frame item draft kind later)
include entered

theorem Entered.item_size : later.program.items.size = draft.program.items.size + 1 := by simp [entered.items]

theorem Entered.decl (id : DeclId) : later.program.decl id = (frame.opening item draft).after.program.decl id := by
  rw [Program.decl, entered.names.decls, ← Program.decl]

theorem Entered.carries : (frame.opening item draft).after.program.Carries later.program := by
  have same := (frame.opening item draft).after_sameTables
  refine Program.carries_of_decls entered.names.decls entered.names.chains (.of_eq entered.names.types) fun id old => ?_
  have inside : id < draft.program.files.size := same.files ▸ old
  exact ⟨inside.trans_le entered.grows.fileCount, (entered.grows.file id inside).trans (same.file id).symm⟩

theorem Entered.behind {id : Nat} (new : draft.program.macros.size ≤ id) (old : id < later.program.macros.size) :
    (later.program.directive id).item = draft.program.items.size := by
  rw [Program.directive, entered.macros]
  exact macros_behind (frame.opening item draft) new (entered.macros ▸ old)

theorem Entered.macro_size : later.program.macros.size ≤ draft.program.macros.size + 1 := by
  rw [entered.macros, Opening.macros]
  split
  · exact (Array.size_push _).le
  · exact Nat.le_succ _

/-- Entering an item changes nothing that was there before. -/
theorem Entered.onward : draft.program.Onward later.program := by
  have steps := (frame.opening item draft).steps
  have start := (frame.opening item draft).start_sameNames
  have opens : draft.program.Carries (frame.opening item draft).draft.program :=
    Program.carries_of_decls rfl rfl (.of_eq rfl) fun _ old => ⟨old, rfl⟩
  exact
    { itemCount := entered.grows.itemCount
      item := fun id inside => .inl (entered.grows.item id inside)
      files := entered.grows.files
      macros := entered.grows.macros
      behind := fun id new old => (entered.behind new old).ge
      size := entered.names.decls ▸ (congrArg Array.size start.decls).symm.trans_le steps.size_le
      decl := fun id inside => by
        refine (entered.decl id).trans ((steps.decl_of_lt (start.decls ▸ inside)).trans ?_)
        rw [Program.decl, start.decls]
        rfl
      carries := opens.trans ((Opening.start_carries _).trans (entered.sound.confines.carries.trans entered.carries))
      uses := fun occurrence member => by
        rw [entered.uses]
        exact List.mem_append_left _ member }

/-- What the item found and added is there right behind it. -/
theorem Entered.lasts (known : ∀ id : Nat, id < draft.program.macros.size →
      (draft.program.directive id).item < draft.program.items.size) :
    (frame.opening item draft).Lasts later.program := by
  have grows := entered.grows
  have last : later.program.item draft.program.items.size = ⟨frame.file, item.extent.inFile frame.file, kind⟩ := by
    simp [Program.item, entered.items]
  refine ⟨(Nat.lt_succ_self _).trans_eq entered.item_size.symm, congrArg Item.file last, congrArg Item.span last,
    (congrArg Item.kind last).symm ▸ entered.hasKind, grows.fileCount, grows.file, grows.macroCount, grows.directive,
    fun id inside => ⟨fun old => ?_, fun front => ?_⟩, (congrArg Array.size entered.names.decls).ge,
    fun id _ => entered.decl id, entered.carries, fun occurrence member => ?_⟩
  · rw [grows.directive id old]
    exact known id old
  · by_contra new
    exact absurd (entered.behind (Nat.not_lt.mp new) inside) front.ne
  · rw [entered.uses]
    exact List.mem_append_right _ member

theorem Entered.ascends (known : ∀ id : Nat, id < draft.program.macros.size →
      (draft.program.directive id).item < draft.program.items.size)
    (ascends : ∀ early late : Nat, early < late → late < draft.program.macros.size →
      (draft.program.directive early).item < (draft.program.directive late).item) {early late : Nat} (less :
      early < late)
    (inside : late < later.program.macros.size) :
    (later.program.directive early).item < (later.program.directive late).item := by
  by_cases old : late < draft.program.macros.size
  · rw [entered.grows.directive late old, entered.grows.directive early (less.trans old)]
    exact ascends early late less old
  · have front : early < draft.program.macros.size :=
      less.trans_le (Nat.le_of_lt_succ (inside.trans_le entered.macro_size))
    rw [entered.behind (Nat.not_lt.mp old) inside, entered.grows.directive early front]
    exact known early front

/-- An item that was entered joins the account: it lasts, and all before it go on lasting. -/
theorem Traces.add (unrolls : Unrolls ⟨frame :: stack, openings, draft⟩)
    (traces : Traces ⟨frame :: stack, openings, draft⟩) :
    Traces ⟨frames, openings ++ [frame.opening item draft], later⟩ := by
  obtain ⟨_, -, unrolling⟩ := unrolls.unrolling
  have known := fun id inside => (unrolling.directives id inside).1
  have sound := entered.sound
  have names := entered.names
  have isLast := List.mem_append_right openings (List.mem_singleton_self (frame.opening item draft))
  refine ⟨?_, ?_, ?_, ?_, ?_, ?_, ?_, ?_, ?_, ?_, fun early late => entered.ascends known traces.ascends⟩
  · exact (sound.coded_anywhere.settled (sound.settled.congr (Opening.start_sameNames _))).congr names
  · exact names.fileScope ▸ sound.confines.inScope.outer.mono entered.carries
  · exact sound.after_types.congr names.types names.decls
  · exact List.forall_mem_append.mpr ⟨traces.sound, List.forall_mem_singleton.mpr sound⟩
  · exact List.forall_mem_append.mpr ⟨fun opening member => (traces.lasts opening member).onward entered.onward,
      List.forall_mem_singleton.mpr (entered.lasts known)⟩
  · refine List.pairwise_append.mpr ⟨traces.ordered, List.pairwise_singleton _ _, fun early member late own => ?_⟩
    rw [List.mem_singleton.mp own]
    exact ⟨(traces.lasts early member).inside, (traces.lasts early member).size⟩
  · intro id inside
    by_cases old : id < draft.program.items.size
    · obtain ⟨opening, member, found⟩ := traces.items id old
      exact ⟨opening, List.mem_append_left _ member, found⟩
    · exact ⟨_, isLast, (Nat.not_lt.mp old).antisymm (Nat.le_of_lt_succ (inside.trans_eq entered.item_size))⟩
  · intro id inside
    by_cases old : id < draft.program.decls.size
    · obtain ⟨opening, member, found⟩ := traces.decls id old
      exact ⟨opening, List.mem_append_left _ member, found⟩
    · exact ⟨_, isLast, Nat.not_lt.mp old, names.decls ▸ inside⟩
  · intro occurrence member
    change occurrence ∈ later.program.uses at member
    rw [entered.uses] at member
    rcases List.mem_append.mp member with member | member
    · obtain ⟨opening, listed, found⟩ := traces.uses occurrence member
      exact ⟨opening, List.mem_append_left _ listed, found⟩
    · exact ⟨_, isLast, member⟩
  · exact traces.relays.append ⟨rfl, entered.macros⟩

end Entered

/-- The step: items are added in order, and leaving a header fills in an entry without touching what items added. -/
theorem Traces.step (step : Step files search before after) (unrolls : before.Unrolls) (lines : before.Lines known)
    (traces : before.Traces) : after.Traces := by
  cases step with
  | @enter frame stack openings draft after item rest kind next enters =>
    have sound := opening_sound unrolls lines traces (next ▸ List.mem_cons_self)
    have names := enters.names
    exact Traces.add ⟨sound, enters.hasKind, enters.added.extends, enters.added.items,
      ⟨names.decls, names.chains, names.types, names.fileScope, names.blocks, names.defined⟩, enters.uses_eq,
      enters.macros_eq⟩ unrolls traces
  | @header frame stack openings draft reading item rest header path system document next form read =>
    have opens := Drafting.header_opens read
    have sound := opening_sound unrolls lines traces (next ▸ List.mem_cons_self)
    have plain : item.form.isCode = false := by rw [form]; rfl
    have hasKind : (frame.opening item draft).HasKind .other :=
      .plain plain (by simp [Frame.opening, form, Surface.Form.isMacroDirective, Surface.Form.macro?]) (by simp)
    obtain ⟨-, place, -, -, rfl⟩ := Drafting.found_of_header read
    refine Traces.add ⟨sound, hasKind, opens.extends, opens.items,
      Opening.sameNames_of_plain plain ⟨rfl, rfl, rfl, rfl, rfl, rfl⟩, ?_, ?_⟩ unrolls traces
    · rw [Opening.uses_of_plain plain, List.append_nil]
      rfl
    · simp only [Opening.macros, Frame.opening, form, Surface.Form.macro?]
      rfl
  | @leave inner outer stack openings draft host done met =>
    obtain ⟨-, kind, fills⟩ := unrolls.leaves met
    obtain ⟨-, place⟩ := unrolls.hosts inner List.mem_cons_self host met
    have carries : draft.program.Carries (draft.leave host inner.file).program :=
      Program.carries_of_decls rfl rfl (.of_eq rfl) fun _ old => ⟨old, rfl⟩
    have onward : draft.program.Onward (draft.leave host inner.file).program := by
      refine ⟨fills.items.ge, fun id _ => ?_, List.prefix_rfl, List.prefix_rfl, fun id new old => ?_, le_rfl,
        fun _ _ => rfl, carries, fun _ member => member⟩
      · rw [fills.item, place]
        split
        · next same =>
          subst same
          exact .inr ⟨kind, _, rfl⟩
        · exact .inl rfl
      · exact absurd old (Nat.not_lt.mpr new)
    exact ⟨traces.settled.congr ⟨rfl, rfl, rfl, rfl, rfl, rfl⟩, traces.outer.mono carries, traces.types.congr rfl rfl,
      traces.sound, fun opening member => (traces.lasts opening member).onward onward, traces.ordered,
      fun id inside => traces.items id (inside.trans_eq fills.items), traces.decls, traces.uses, traces.relays,
        traces.ascends⟩

end Traces

structure Follows (known : Document → Prop) (tour : Tour) : Prop where
  unrolls : tour.Unrolls
  lines : tour.Lines known
  traces : tour.Traces

theorem Follows.step (all : ∀ place document, (place, FileContent.document document) ∈ files.files → known document)
    (step : Step files search before after) (follows : before.Follows known) : after.Follows known :=
  ⟨follows.unrolls.step step, follows.lines.step all step follows.unrolls,
    follows.traces.step step follows.unrolls follows.lines⟩

theorem start_follows (path : String) {document : Document} (isKnown : known document) :
    (start path document).Follows known := by
  refine ⟨start_unrolls path document, ⟨?_, ?_, fun file inside => ?_⟩,
    ⟨Draft.consistent_empty.congr rfl rfl rfl rfl, by simp [start, Program.addFile], rfl⟩,
    ⟨fun _ _ bound => ?_, fun _ _ bound => ?_⟩, fun id inside => ?_, ?_, ?_, ?_, ?_, ?_, ?_, rfl, ?_⟩
  · simp [start, Program.addFile, Program.file]
  · simp [start]
  · obtain rfl : file = 0 := by simpa [start, Program.addFile] using inside
    exact ⟨document, isKnown, rfl, by simp [start, Opening.itemsIn, Frame.itemsLeft]⟩
  · cases bound
  · cases bound
  · cases inside
  all_goals simp [start, Program.addFile]

end Tour

structure Program.Opened (known : Document → Prop) (program : Program) (openings : List Opening) : Prop where
  sound : ∀ opening ∈ openings, opening.Sound
  lasts : ∀ opening ∈ openings, opening.Lasts program
  ordered : openings.Pairwise fun first second => first.draft.item < second.draft.item ∧
    first.after.program.decls.size ≤ second.draft.program.decls.size
  items : ∀ id : Nat, id < program.items.size → ∃ opening ∈ openings, opening.draft.item = id
  decls : ∀ id : Nat, id < program.decls.size →
    ∃ opening ∈ openings, opening.draft.program.decls.size ≤ id ∧ id < opening.after.program.decls.size
  uses : ∀ occurrence ∈ program.uses, ∃ opening ∈ openings, occurrence ∈ opening.uses
  types : program.TypesFormed
  headers : ∀ file : Nat, file < program.files.size → ∃ header, known header ∧ (program.file file).text = header.text ∧
    Opening.itemsIn openings file = (Surface.itemsOf header.text header.tree).map (header, ·)
  relays : Opening.Relays #[] openings program.macros
  ascends : ∀ early late : Nat, early < late → late < program.macros.size →
    (program.directive early).item < (program.directive late).item

/-- The run: what entering an item adds is found unchanged in the finished unit, and everything in the unit was added by
one of the items. -/
theorem Program.openingsOf_opened {known : Document → Prop} {files : FileSystem}
    (all : ∀ place document, (place, FileContent.document document) ∈ files.files → known document)
    (search : SearchPath)
    (path : String) {document : Document} (isKnown : known document) :
    (Program.ofDocument files search path document).Opened known (Program.openingsOf files search path document) := by
  obtain ⟨draft, ⟨-, lines, traces⟩, built⟩ :=
    exists_tour files search (Tour.start_follows path isKnown) (Tour.Follows.step all)
  rw [built]
  exact
    { sound := traces.sound
      lasts := fun opening member =>
        { traces.lasts opening member with
          carries := (traces.lasts opening member).carries.trans
            (Program.carries_of_decls rfl rfl (.of_eq rfl) fun _ old => ⟨old, rfl⟩)
          uses := fun occurrence used => mem_stableSort.mpr ((traces.lasts opening member).uses occurrence used) }
      ordered := traces.ordered
      items := traces.items
      decls := traces.decls
      uses := fun occurrence used => traces.uses occurrence (mem_stableSort.mp used)
      types := traces.types.congr rfl rfl
      headers := fun file inside => by
        obtain ⟨header, isKnown, text, items⟩ := lines.headers file inside
        exact ⟨header, isKnown,
          text, by simpa [Frame.itemsLeft_cons, show Frame.itemsLeft [] file = [] from rfl] using items⟩
      relays := traces.relays
      ascends := traces.ascends }

theorem Program.ofDocument_opened (files : FileSystem) (search : SearchPath) (path : String) (document : Document) :
    (Program.ofDocument files search path document).Opened (fun _ => True)
    (Program.openingsOf files search path document) :=
  Program.openingsOf_opened (fun _ _ _ => trivial) search path trivial

namespace Program

section Opened

variable {known : Document → Prop} {program : Program} {openings : List Opening}
  (opened : program.Opened known openings)
include opened

theorem Opened.eq_of_item {first second : Opening} (member : first ∈ openings) (other : second ∈ openings)
    (same : first.draft.item = second.draft.item) : first = second := by
  have distinct : (openings.map (·.draft.item)).Nodup :=
    List.pairwise_map.mpr (opened.ordered.imp fun both => Nat.ne_of_lt both.1)
  exact List.inj_on_of_nodup_map distinct member other same

theorem Opened.items_eq_range : openings.map (·.draft.item) = List.range program.items.size := by
  apply eq_of_ascending (List.pairwise_map.mpr (opened.ordered.imp And.left)) List.pairwise_lt_range
  intro id
  rw [List.mem_map, List.mem_range]
  constructor
  · rintro ⟨opening, member, rfl⟩
    exact (opened.lasts opening member).inside
  · intro inside
    obtain ⟨opening, member, same⟩ := opened.items id inside
    exact ⟨opening, member, same⟩

theorem Opened.exists_document {file : Nat} (inside : file < program.files.size) :
    ∃ document, known document ∧ ∀ opening ∈ openings, opening.draft.file = file → opening.document = document := by
  obtain ⟨header, isKnown, -, items⟩ := opened.headers file inside
  refine ⟨header, isKnown, fun opening member own => ?_⟩
  have listed : (opening.document, opening.item) ∈ Opening.itemsIn openings file :=
    List.mem_map.mpr ⟨opening, List.mem_filter.mpr ⟨member, beq_iff_eq.mpr own⟩, rfl⟩
  rw [items] at listed
  obtain ⟨item, -, same⟩ := List.mem_map.mp listed
  exact (congrArg Prod.fst same).symm

theorem Opened.documents (opening : Opening) (member : opening ∈ openings) : known opening.document := by
  have inside := (opened.sound opening member).file.trans_le (opened.lasts opening member).fileCount
  obtain ⟨document, isKnown, same⟩ := opened.exists_document inside
  rw [same opening member rfl]
  exact isKnown

theorem Opened.same (first : Opening) (member : first ∈ openings) (second : Opening) (other : second ∈ openings)
    (file : first.draft.file = second.draft.file) : first.document = second.document := by
  have inside := (opened.sound first member).file.trans_le (opened.lasts first member).fileCount
  obtain ⟨document, -, same⟩ := opened.exists_document inside
  exact (same first member rfl).trans (same second other file.symm).symm

/-- A declaration was made by the item that it names, and it is still as that item left it. -/
theorem Opened.exists_opening {id : Nat} (inside : id < program.decls.size) :
    ∃ opening ∈ openings, opening.draft.item = (program.decl id).item ∧
      opening.start.program.decls.size ≤ id ∧ id < opening.after.program.decls.size ∧
      program.decl id = opening.after.program.decl id := by
  obtain ⟨opening, member, new, old⟩ := opened.decls id inside
  have same := (opened.lasts opening member).decls id old
  have sound := opened.sound opening member
  rw [← opening.start_decls] at new
  obtain ⟨function, sits, -⟩ := sound.coded_anywhere.sits id new old
  refine ⟨opening, member, ?_, new, old, same⟩
  rw [same]
  exact sits.item.symm

theorem Opened.confined {id : Nat} (inside : id < program.decls.size) : program.Confined id := by
  obtain ⟨opening, member, -, new, old, same⟩ := opened.exists_opening inside
  exact ((opened.sound opening member).confines.decls id new old).mono (opened.lasts opening member).carries same

theorem Opened.formed {id : Nat} (inside : id < program.decls.size) {opening : Opening} (member : opening ∈ openings)
    (item : (program.decl id).item = opening.draft.item) {expands : String → Span → Prop}
    (allowed : Surface.Spelled (opening.scene expands).Allows opening.item.form.names) :
    (program.decl id).kind.Formed (opening.scene expands) program := by
  obtain ⟨owner, listed, same, new, old, -⟩ := opened.exists_opening inside
  have own : owner = opening := opened.eq_of_item listed member (same.trans item)
  subst own
  rw [owner.start_decls] at new
  exact (opened.lasts owner listed).formed (opened.sound owner listed) allowed new old

end Opened

end Program

end Excerpt
