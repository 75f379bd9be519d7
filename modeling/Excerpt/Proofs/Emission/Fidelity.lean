import Excerpt.Config.Basic
import Excerpt.Proofs.Closure.Rules
import Excerpt.Proofs.Draft.Layout
import Excerpt.Proofs.Draft.Written
import Excerpt.Proofs.Emission.Stream
import Excerpt.Proofs.Program.Region
import Excerpt.Proofs.Program.Timeline
import Mathlib.Data.Finset.Max

/-!
The output gives a name the definition that it had in the source.
-/

namespace Excerpt

theorem Session.IsRead.unrolled {session : Session} (read : session.IsRead) : session.program.Unrolling [] := by
  obtain ⟨files, search, path, document, same⟩ := read
  exact same ▸ Program.ofDocument_unrolled files search path document

namespace Session

variable {session : Session} {closure : Closure} {requested : List String} {name : String}

theorem extract_eq_ok {extraction : Extraction} (found : session.extract requested = .ok extraction) :
    session.closure requested = .ok extraction.closure := by
  unfold extract at found
  cases closed : session.closure requested with
  | error error =>
    rw [closed] at found
    cases found
  | ok closure =>
    rw [closed] at found
    dsimp only at found
    split at found
    · cases found
    · cases found
      rfl

theorem Expands.visible {pos : SourcePos} {id : MacroId} (expands : session.Expands name pos id) :
    session.program.visibleDefinition? (session.program.directive id).name pos = some id := by
  obtain ⟨key, -, visible⟩ := expands
  rw [(Program.mem_of_visible visible).2.1]
  exact visible

theorem isDefine_of_expands {pos : SourcePos} {id : MacroId} (expands : session.Expands name pos id) :
    id < session.program.macros.size ∧ (session.program.directive id).isDefine = true := by
  obtain ⟨inside, -, define⟩ := Program.mem_of_visible expands.visible
  exact ⟨inside, define⟩

/-- Only definitions are marked: a use expands the definition that is visible at it. -/
theorem isDefine_of_marked (read : session.IsRead) (found : session.closure requested = .ok closure) :
    ∀ id ∈ closure.macros, id < session.program.macros.size ∧ (session.program.directive id).isDefine = true := by
  have obeys := closure_obeys read.consistent found
  have restricted : session.Obeys requested { id | id ∈ closure.decls }
      { id | id ∈ closure.macros ∧
        id < session.program.macros.size ∧ (session.program.directive id).isDefine = true } :=
    { requests := obeys.requests
      declarations := obeys.declarations
      bodies := obeys.bodies
      uses := fun id marked occurrence scanned directive expands =>
        ⟨obeys.uses id marked occurrence scanned directive expands, isDefine_of_expands expands⟩
      replacements := fun directive marked => obeys.replacements directive marked.1 }
  intro id marked
  exact ((closure_subset read.consistent found restricted).2 id marked).2

theorem seq_of_scanned {id : DeclId} {occurrence : MacroUse} (scanned : occurrence ∈ session.scannedUses requested id) :
    occurrence.pos.seq = (session.program.decl id).item := by
  obtain ⟨-, range⟩ := List.mem_filter.mp scanned
  simp only [SourcePos.atOrBefore, SourcePos.before, Bool.and_eq_true, Bool.or_eq_true, decide_eq_true_eq,
    beq_iff_eq] at range
  omega

theorem printedDirective_eq_some {item : ItemId} {id : MacroId} :
    session.printedDirective? closure item = some id ↔
      session.program.isFileExpanded session.keepIncludes (session.program.item item).file = true ∧
        (session.program.item item).kind = .directive id ∧ id ∈ closure.macros := by
  unfold printedDirective?
  constructor
  · intro printed
    split_ifs at printed with expanded
    split at printed
    · next other kind =>
      split_ifs at printed with marked
      cases printed
      exact ⟨expanded, kind, List.contains_iff_mem.mp marked⟩
    · cases printed
  · intro facts
    obtain ⟨expanded, kind, marked⟩ := facts
    simp [expanded, kind, marked]

theorem afterItem_printed {current : Option MacroId} {item : ItemId} {id : MacroId}
    (printed : session.printedDirective? closure item = some id) (named : (session.program.directive id).name = name) :
    session.afterItem closure name current item = some id := by
  simp [afterItem, printed, named, Option.filter]

theorem afterItem_other {current : Option MacroId} {item : ItemId}
    (other : ∀ id, session.printedDirective? closure item = some id → (session.program.directive id).name ≠ name) :
    session.afterItem closure name current item = session.afterUndefs closure name current item := by
  unfold afterItem
  cases printed : session.printedDirective? closure item with
  | none => rfl
  | some id => simp [Option.filter, other id printed]

section Unit

variable (unit : session.program.Unrolling [])
include unit

theorem printed_of_marked {id : Nat} (inside : id < session.program.macros.size) (marked : id ∈ closure.macros)
    (expanded : session.isMacroExpanded id = true) :
    session.printedDirective? closure (session.program.directive id).item = some id := by
  obtain ⟨-, kind, seq⟩ := Program.directive_item unit inside
  refine printedDirective_eq_some.mpr ⟨?_, kind, marked⟩
  rw [← seq]
  exact expanded

theorem item_of_printed {item id : Nat} (within : item < session.program.items.size)
    (printed : session.printedDirective? closure item = some id) :
    id < session.program.macros.size ∧ (session.program.directive id).item = item ∧ id ∈ closure.macros := by
  obtain ⟨-, kind, marked⟩ := printedDirective_eq_some.mp printed
  obtain ⟨inside, place⟩ := unit.kinds item id within kind
  exact ⟨inside, place, marked⟩

section Printed

variable {id item : Nat} (within : item < session.program.items.size) (inside : id < session.program.macros.size)
  (marked : id ∈ closure.macros) (expanded : session.isMacroExpanded id = true)
  (earlier : (session.program.directive id).item < item)
  (last : ∀ other ∈ closure.macros, (session.program.directive other).name = (session.program.directive id).name →
    (session.program.directive other).item < item →
      (session.program.directive other).item ≤ (session.program.directive id).item)
include within inside marked expanded earlier last

/-- A printed definition stays in force as far as no removal of its name and no other definition follows. -/
theorem definitionAt_of_printed
    (kept : ∀ j : Nat, (session.program.directive id).item < j → j < item →
      (session.program.directive id).name ∉ session.undefsBefore closure j) :
    session.definitionAt closure (session.program.directive id).name item = some id := by
  have start : session.definitionAt closure (session.program.directive id).name
      ((session.program.directive id).item + 1) = some id := by
    rw [definitionAt_succ, afterItem_printed (printed_of_marked unit inside marked expanded) rfl]
  rw [← start]
  apply definitionAt_of_silent earlier
  intro j behind below
  rw [afterItem_other, afterUndefs, if_neg (kept j behind below)]
  intro other printed named
  obtain ⟨-, place, otherMarked⟩ := item_of_printed unit (Nat.lt_trans below within) printed
  have bound := last other otherMarked named (place ▸ below)
  rw [place] at bound
  exact Nat.not_lt.mpr bound behind

theorem definition_of_printed
    (kept : ∀ j : Nat, (session.program.directive id).item < j → j ≤ item →
      (session.program.directive id).name ∉ session.undefsBefore closure j) :
    session.afterUndefs closure (session.program.directive id).name
      (session.definitionAt closure (session.program.directive id).name item) item = some id := by
  rw [afterUndefs, if_neg (kept item earlier (Nat.le_refl _))]
  apply definitionAt_of_printed unit within inside marked expanded earlier last
  intro j behind below
  exact kept j behind (Nat.le_of_lt below)

end Printed

/-- A name without a definition gets none from items that print no directive of it. -/
theorem definition_none {start item : Nat} (within : item < session.program.items.size) (below : start ≤ item)
    (empty : session.definitionAt closure name start = none)
    (silent : ∀ id ∈ closure.macros, (session.program.directive id).name = name →
      (session.program.directive id).item < item → (session.program.directive id).item < start) :
    session.afterUndefs closure name (session.definitionAt closure name item) item = none := by
  have reached : session.definitionAt closure name item = none := by
    apply definitionAt_none below empty
    intro j behind less
    rw [afterItem_other, afterUndefs, ite_self]
    intro id printed named
    obtain ⟨-, place, marked⟩ := item_of_printed unit (Nat.lt_trans less within) printed
    have bound := silent id marked named (place ▸ less)
    rw [place] at bound
    exact Nat.not_lt.mpr behind bound
  rw [reached, afterUndefs, ite_self]

theorem removal_of_mem (undefs : closure.needsUndef = closure.macros.filter session.isReplaced)
    (known : ∀ id ∈ closure.macros, id < session.program.macros.size) {item : Nat}
    (removed : name ∈ session.undefsBefore closure item) :
    ∃ id next, id ∈ closure.macros ∧ session.isReplaced id = true ∧ (session.program.directive id).name = name ∧
      session.program.IsNext id next ∧
      item = session.program.emissionSlot session.keepIncludes (session.program.directive next).item := by
  obtain ⟨id, listed, slot, named⟩ := mem_undefsBefore.mp removed
  rw [undefs] at listed
  obtain ⟨marked, replaced⟩ := List.mem_filter.mp listed
  obtain ⟨next, found, place⟩ := Option.map_eq_some_iff.mp slot
  exact ⟨id, next, marked, replaced, named, Program.isNext_of_nextDirective unit (known id marked) found, place.symm⟩

/-- Between a visible definition and the item no removal of the name stands: it would stand for a directive in between.
-/
theorem not_removed_of_latest (undefs : closure.needsUndef = closure.macros.filter session.isReplaced)
    (known : ∀ id ∈ closure.macros, id < session.program.macros.size) {item id : Nat}
    (expanded : session.program.isFileExpanded session.keepIncludes (session.program.item item).file = true)
    (kind : ∃ members, (session.program.item item).kind = .decls members)
    (latest : session.program.IsLatest name item id) {j : Nat} (behind : (session.program.directive id).item < j)
    (below : j ≤ item) : name ∉ session.undefsBefore closure j := by
  intro removed
  obtain ⟨members, kind⟩ := kind
  obtain ⟨removedId, next, -, -, named, isNext, rfl⟩ := removal_of_mem unit undefs known removed
  obtain ⟨nextWithin, nextKind, -⟩ := Program.directive_item unit isNext.inside
  have slotLe := @Program.emissionSlot_le _ session.keepIncludes unit _ nextWithin
  -- The next directive lies behind the visible one, so it lies behind the item.
  have nextBehind : (session.program.directive id).item < (session.program.directive next).item :=
    Nat.lt_of_lt_of_le behind slotLe
  have notEarlier : ¬(session.program.directive next).item < item := by
    intro earlier
    have bound := latest.last next isNext.inside (isNext.named.trans named) earlier
    exact Nat.not_lt.mpr bound nextBehind
  have different : (session.program.directive next).item ≠ item := by
    intro same
    rw [same, kind] at nextKind
    cases nextKind
  have later : item < (session.program.directive next).item :=
    Nat.lt_of_le_of_ne (Nat.le_of_not_lt notEarlier) (Ne.symm different)
  have slotBehind := Program.lt_emissionSlot unit nextWithin later expanded (by simp [kind])
  exact Nat.not_lt.mpr below slotBehind

end Unit

/-- Where the declarations of an item are reached, each name that a use of them expands to is defined by the directive
that was visible at the use, provided that its text is taken into the output. -/
theorem definitionIn_of_expands {extraction : Extraction} {before after : List Chunk} {chunk : Chunk} {item : ItemId}
    {id : DeclId} {occurrence : MacroUse} {directive : MacroId} (read : session.IsRead)
    (found : session.extract requested = .ok extraction)
    (split : session.chunks extraction.closure extraction.kept = before ++ chunk :: after)
    (holds : chunk.origin.declItem? = some item) (marked : id ∈ extraction.closure.decls)
    (place : (session.program.decl id).item = item) (scanned : occurrence ∈ session.scannedUses requested id)
    (expands : session.Expands occurrence.name occurrence.pos directive)
    (expanded : session.isMacroExpanded directive = true) :
    definitionIn session.program (session.program.directive directive).name before = some directive := by
  have unit := read.unrolled
  have closed := extract_eq_ok found
  have known := fun id marked => (isDefine_of_marked read closed id marked).1
  obtain ⟨within, itemExpanded, kind, value⟩ := definitionIn_chunks split holds
  have seq : occurrence.pos.seq = item := (seq_of_scanned scanned).trans place
  obtain ⟨members, decls⟩ := kind
  have noDirective : ∀ m, (session.program.item occurrence.pos.seq).kind ≠ .directive m := by
    simp [seq, decls]
  obtain ⟨latest, -⟩ := Program.isLatest_of_visible unit noDirective expands.visible
  rw [seq] at latest
  have used := (closure_obeys read.consistent closed).uses id marked occurrence scanned directive expands
  rw [value]
  apply definition_of_printed unit within latest.inside used expanded latest.earlier
  · intro other otherMarked named earlier
    exact latest.last other (known other otherMarked) named earlier
  · intro j behind below
    exact not_removed_of_latest unit (needsUndef_eq closed) known itemExpanded ⟨members, decls⟩ latest behind below

def threeDefinitions : Session :=
  ({} : Config).session (.ofDocument ⟨[], []⟩ ⟨[]⟩ "unit.c"
    (Written.document
      [("", .define "A" "1"), ("", .function "f" (.reference "A")), ("\n", .define "A" "2"),
        ("", .function "g" (.reference "A")), ("\n", .define "A" "3"), ("", .function "h" (.reference "A"))]))

set_option maxRecDepth 10000 in
/-- In front of `g` stand the first definition, its removal and the second definition. -/
theorem definitionIn_threeDefinitions : ∃ extraction before chunk after,
    threeDefinitions.extract ["f", "g"] = .ok extraction ∧
    threeDefinitions.chunks extraction.closure extraction.kept = before ++ chunk :: after ∧
    before.map (·.origin) = [.directive 0 0, .whole 1, ChunkOrigin.undef "A" 2, .directive 1 2] ∧
      chunk.origin = .whole 3 ∧
    definitionIn threeDefinitions.program (threeDefinitions.program.directive 1).name before = some 1 := by
  let extraction : Extraction :=
    { closure :=
        { roots := [0, 1], decls := [0, 1], macros := [0, 1], needsUndef := [0, 1], renames := [], passSizes := [2] }
      kept := [0, 1]
      text := ("#define A 1\n\nint f(void) \x7b return A; \x7d\n\n#undef A\n\n#define A 2\n\n" ++
        "int g(void) \x7b return A; \x7d\n\n#undef A\n").toList }
  let before : List Chunk :=
    [⟨.directive 0 0, "#define A 1\n".toList⟩, ⟨.whole 1, "int f(void) \x7b return A; \x7d".toList⟩,
      ⟨ ChunkOrigin.undef "A" 2, "#undef A".toList⟩, ⟨.directive 1 2, "#define A 2\n".toList⟩]
  let chunk : Chunk := ⟨.whole 3, "int g(void) \x7b return A; \x7d".toList⟩
  let after : List Chunk := [⟨ ChunkOrigin.undef "A" 4, "#undef A".toList⟩]
  have facts : threeDefinitions.extract ["f", "g"] = .ok extraction ∧
      threeDefinitions.chunks extraction.closure extraction.kept = before ++ chunk :: after ∧
      (threeDefinitions.program.decl 1).item = 3 ∧
        ⟨"A", ⟨3, 71⟩, ⟨0, 71, 72⟩⟩ ∈ threeDefinitions.scannedUses ["f", "g"] 1 ∧
      1 ∈ threeDefinitions.expansion "A" ⟨3, 71⟩ ∧ threeDefinitions.isMacroExpanded 1 = true := by
    decide +kernel
  obtain ⟨found, split, place, scanned, listed, expanded⟩ := facts
  refine ⟨extraction, before, chunk, after, found, split, rfl, rfl, ?_⟩
  exact definitionIn_of_expands ⟨_, _, _, _, rfl⟩ found split rfl (by decide) place scanned
    (mem_expansion.mp listed) expanded

structure IsLastMarked (session : Session) (closure : Closure) (name : String) (item : ItemId) (id : MacroId) :
    Prop where
  marked : id ∈ closure.macros
  named : (session.program.directive id).name = name
  earlier : (session.program.directive id).item < item
  last : ∀ other ∈ closure.macros, (session.program.directive other).name = name →
    (session.program.directive other).item < item →
      (session.program.directive other).item ≤ (session.program.directive id).item

theorem exists_isLastMarked {item id : Nat} (marked : id ∈ closure.macros)
    (named : (session.program.directive id).name = name) (earlier : (session.program.directive id).item < item) :
    ∃ last, session.IsLastMarked closure name item last := by
  let candidates := (closure.macros.filter fun other =>
    (session.program.directive other).name == name && decide ((session.program.directive other).item < item)).toFinset
  have mem_candidates : ∀ other, other ∈ candidates ↔ other ∈ closure.macros ∧
      (session.program.directive other).name = name ∧ (session.program.directive other).item < item := by
    simp [candidates]
  obtain ⟨last, listed, greatest⟩ := candidates.exists_max_image (fun other => (session.program.directive other).item)
    ⟨id, (mem_candidates id).mpr ⟨marked, named, earlier⟩⟩
  obtain ⟨lastMarked, lastNamed, lastEarlier⟩ := (mem_candidates last).mp listed
  refine ⟨last, lastMarked, lastNamed, lastEarlier, ?_⟩
  intro other otherMarked otherNamed otherEarlier
  exact greatest other ((mem_candidates other).mpr ⟨otherMarked, otherNamed, otherEarlier⟩)

section Expanded

variable (unit : session.program.Unrolling [])
  (everything : ∀ file : Nat, file < session.program.files.size →
    session.program.isFileExpanded session.keepIncludes file = true)
include unit everything

theorem slot_of_expanded {item : Nat} (within : item < session.program.items.size) :
    session.program.emissionSlot session.keepIncludes item = item :=
  Program.emissionSlot_of_expanded unit.nested (everything _ (unit.nested.items item within))

theorem isMacroExpanded_of_expanded {id : Nat} (inside : id < session.program.macros.size) :
    session.isMacroExpanded id = true := by
  obtain ⟨within, -, seq⟩ := Program.directive_item unit inside
  have file := everything _ (unit.nested.items _ within)
  rw [← seq] at file
  exact file

theorem isReplaced_iff {id : Nat} (inside : id < session.program.macros.size)
    (define : (session.program.directive id).isDefine = true) :
    session.isReplaced id = true ↔ ∃ later ∈ session.program.laterDefinitions id,
      (session.program.directive later).sameDefinition (session.program.directive id) = false := by
  simp [isReplaced, define, isMacroExpanded_of_expanded unit everything inside]

/-- The removal of a replaced definition stands in the slot of the directive that replaced it. -/
theorem definitionAt_of_replaced (undefs : closure.needsUndef = closure.macros.filter session.isReplaced)
    {id next : Nat} (marked : id ∈ closure.macros) (replaced : session.isReplaced id = true)
    (found : session.program.nextDirective? id = some next) (isNext : session.program.IsNext id next)
    (unmarked : next ∉ closure.macros) :
    session.definitionAt closure (session.program.directive id).name
      ((session.program.directive next).item + 1) = none := by
  obtain ⟨within, kind, -⟩ := Program.directive_item unit isNext.inside
  have removed :
      (session.program.directive id).name ∈ session.undefsBefore closure (session.program.directive next).item := by
    refine mem_undefsBefore.mpr ⟨id, ?_, ?_, rfl⟩
    · rw [undefs]
      exact List.mem_filter.mpr ⟨marked, replaced⟩
    · rw [undefSlot?, found, Option.map_some, slot_of_expanded unit everything within]
  rw [definitionAt_succ, afterItem_other, afterUndefs, if_pos removed]
  intro other printed
  obtain ⟨-, otherKind, otherMarked⟩ := printedDirective_eq_some.mp printed
  rw [kind] at otherKind
  cases otherKind
  exact absurd otherMarked unmarked

/-- Behind the last marked definition no removal of its name stands, unless that definition was replaced itself. -/
theorem not_removed_of_lastMarked (undefs : closure.needsUndef = closure.macros.filter session.isReplaced)
    (known : ∀ id ∈ closure.macros, id < session.program.macros.size) {item last : Nat}
    (isLast : session.IsLastMarked closure name item last) (stays : session.isReplaced last = false) {j : Nat}
    (behind : (session.program.directive last).item < j) (below : j ≤ item) :
    name ∉ session.undefsBefore closure j := by
  intro removed
  obtain ⟨id, next, marked, replaced, named, isNext, slot⟩ := removal_of_mem unit undefs known removed
  rw [slot_of_expanded unit everything (Program.directive_item unit isNext.inside).1] at slot
  have idEarlier : (session.program.directive id).item < item :=
    Nat.lt_of_lt_of_le (slot ▸ isNext.later) below
  rcases Nat.lt_or_eq_of_le (isLast.last id marked named idEarlier) with before | same
  · -- The removal would stand at or before the last marked definition.
    have bound := isNext.first last (known last isLast.marked) (isLast.named.trans named.symm) before
    rw [← slot] at bound
    exact Nat.not_lt.mpr bound behind
  · obtain rfl := Program.directive_of_item unit (known id marked) (known last isLast.marked) same
    rw [stays] at replaced
    cases replaced

/-- Where the last marked definition was replaced and nothing is visible, its removal stands in between. -/
theorem definition_of_replaced (undefs : closure.needsUndef = closure.macros.filter session.isReplaced)
    {pos : SourcePos} {last : Nat} (within : pos.seq < session.program.items.size)
    (noDirective : ∀ m, (session.program.item pos.seq).kind ≠ .directive m)
    (hidden : session.program.visibleDefinition? name pos = none) (inside : last < session.program.macros.size)
    (define : (session.program.directive last).isDefine = true)
    (isLast : session.IsLastMarked closure name pos.seq last) (replaced : session.isReplaced last = true) :
    session.afterUndefs closure name (session.definitionAt closure name pos.seq) pos.seq = none := by
  obtain ⟨later, listed, -⟩ := (isReplaced_iff unit everything inside define).mp replaced
  obtain ⟨next, found⟩ := Program.nextDirective_of_mem (List.mem_filter.mp listed).1
  have isNext := Program.isNext_of_nextDirective unit inside found
  -- A removal in the source stands between the definition and the item, so the next directive does too.
  obtain ⟨removal, latest, removes⟩ :=
    Program.latest_not_define unit noDirective hidden inside isLast.named isLast.earlier
  have different : (session.program.directive last).item ≠ (session.program.directive removal).item := by
    intro same
    obtain rfl := Program.directive_of_item unit inside latest.inside same
    rw [define] at removes
    cases removes
  have between : (session.program.directive last).item < (session.program.directive removal).item :=
    Nat.lt_of_le_of_ne (latest.last last inside isLast.named isLast.earlier) different
  have nextEarlier : (session.program.directive next).item < pos.seq :=
    Nat.lt_of_le_of_lt (isNext.first removal latest.inside (latest.named.trans isLast.named.symm) between)
      latest.earlier
  have unmarked : next ∉ closure.macros := by
    intro marked
    have bound := isLast.last next marked (isNext.named.trans isLast.named) nextEarlier
    exact Nat.not_lt.mpr bound isNext.later
  have gone := definitionAt_of_replaced unit everything undefs isLast.marked replaced found isNext unmarked
  rw [isLast.named] at gone
  apply definition_none unit within nextEarlier gone
  intro id marked named earlier
  have bound := isLast.last id marked named earlier
  exact Nat.lt_succ_of_lt (Nat.lt_of_le_of_lt bound isNext.later)

end Expanded

/-- With all headers expanded, a name without a visible definition has none in the output if and only if no definition
of it is printed before, or the last one printed before is followed by a different definition somewhere in the
unit. -/
theorem definitionIn_eq_none_iff {extraction : Extraction} {before after : List Chunk} {chunk : Chunk} {pos : SourcePos}
    (read : session.IsRead) (found : session.extract requested = .ok extraction)
    (everything : ∀ file : Nat, file < session.program.files.size →
      session.program.isFileExpanded session.keepIncludes file = true)
    (split : session.chunks extraction.closure extraction.kept = before ++ chunk :: after)
    (holds : chunk.origin.declItem? = some pos.seq) (hidden : session.program.visibleDefinition? name pos = none) :
    definitionIn session.program name before = none ↔
      ∀ last, session.IsLastMarked extraction.closure name pos.seq last →
        ∃ later ∈ session.program.laterDefinitions last,
          (session.program.directive later).sameDefinition (session.program.directive last) = false := by
  have unit := read.unrolled
  have closed := extract_eq_ok found
  have undefs := needsUndef_eq closed
  have definitions := isDefine_of_marked read closed
  have known := fun id marked => (definitions id marked).1
  obtain ⟨within, -, ⟨members, decls⟩, value⟩ := definitionIn_chunks split holds
  have noDirective : ∀ m, (session.program.item pos.seq).kind ≠ .directive m := by simp [decls]
  rw [value]
  constructor
  · intro empty last isLast
    obtain ⟨inside, define⟩ := definitions last isLast.marked
    rw [← isReplaced_iff unit everything inside define]
    cases stays : session.isReplaced last with
    | true => rfl
    | false =>
      have present := definition_of_printed unit within inside isLast.marked
        (isMacroExpanded_of_expanded unit everything inside) isLast.earlier
        (fun other marked named => isLast.last other marked (named.trans isLast.named))
        (fun j behind below =>
          isLast.named ▸ not_removed_of_lastMarked unit everything undefs known isLast stays behind below)
      rw [isLast.named, empty] at present
      cases present
  · intro replaced
    by_cases some_ : ∃ id ∈ extraction.closure.macros, (session.program.directive id).name = name ∧
        (session.program.directive id).item < pos.seq
    · obtain ⟨id, marked, named, earlier⟩ := some_
      obtain ⟨last, isLast⟩ := exists_isLastMarked marked named earlier
      obtain ⟨inside, define⟩ := definitions last isLast.marked
      exact definition_of_replaced unit everything undefs within noDirective hidden inside define isLast
        ((isReplaced_iff unit everything inside define).mpr (replaced last isLast))
    · apply definition_none unit within (Nat.zero_le _) rfl
      intro id marked named earlier
      exact absurd ⟨id, marked, named, earlier⟩ some_

def replacedAfterwards : Session :=
  ({} : Config).session (.ofDocument ⟨[], []⟩ ⟨[]⟩ "unit.c"
    (Written.document
      [("", .define "A" "1"), ("", .function "f" (.reference "A")), ("\n", Written.undef "A"), ("", .object "A"),
        ("\n", .function "g" (.reference "A")), ("\n", .define "A" "2")]))

set_option maxRecDepth 10000 in
/-- The definition is printed for `f`, and its removal is printed in front of the variable. -/
theorem definitionIn_eq_none_replacedAfterwards : ∃ extraction before chunk after,
    replacedAfterwards.extract ["f", "g"] = .ok extraction ∧
    replacedAfterwards.chunks extraction.closure extraction.kept = before ++ chunk :: after ∧
    before.map (·.origin) = [.directive 0 0, .whole 1, ChunkOrigin.undef "A" 2] ∧ chunk.origin = .whole 3 ∧
    replacedAfterwards.IsLastMarked extraction.closure "A" 3 0 ∧
    definitionIn replacedAfterwards.program "A" before = none := by
  let extraction : Extraction :=
    { closure :=
        { roots := [0, 2], decls := [0, 1, 2], macros := [0], needsUndef := [0], renames := [], passSizes := [3] }
      kept := [0, 1, 2]
      text := ("#define A 1\n\nint f(void) \x7b return A; \x7d\n\n#undef A\n\nint A;\n\n" ++
        "int g(void) \x7b return A; \x7d\n").toList }
  let before : List Chunk :=
    [⟨.directive 0 0, "#define A 1\n".toList⟩, ⟨.whole 1, "int f(void) \x7b return A; \x7d".toList⟩,
      ⟨ ChunkOrigin.undef "A" 2, "#undef A".toList⟩]
  let chunk : Chunk := ⟨.whole 3, "int A;".toList⟩
  let after : List Chunk := [⟨.whole 4, "int g(void) \x7b return A; \x7d".toList⟩]
  have facts : replacedAfterwards.extract ["f", "g"] = .ok extraction ∧
      replacedAfterwards.chunks extraction.closure extraction.kept = before ++ chunk :: after ∧
      (∀ file : Nat, file < replacedAfterwards.program.files.size →
        replacedAfterwards.program.isFileExpanded replacedAfterwards.keepIncludes file = true) ∧
      replacedAfterwards.program.visibleDefinition? "A" ⟨3, 51⟩ = none ∧
      (replacedAfterwards.program.directive 0).name = "A" ∧ (replacedAfterwards.program.directive 0).item < 3 ∧
      2 ∈ replacedAfterwards.program.laterDefinitions 0 ∧ (replacedAfterwards.program.directive 2).sameDefinition
        (replacedAfterwards.program.directive 0) = false := by
    decide +kernel
  obtain ⟨found, split, everything, hidden, named, earlier, later, different⟩ := facts
  have isLast : replacedAfterwards.IsLastMarked extraction.closure "A" 3 0 :=
    ⟨by decide, named, earlier, fun other marked _ _ => by rw [List.mem_singleton.mp marked]⟩
  refine ⟨extraction, before, chunk, after, found, split, rfl, rfl, isLast, ?_⟩
  have place : chunk.origin.declItem? = some (SourcePos.mk 3 51).seq := rfl
  refine (definitionIn_eq_none_iff ⟨_, _, _, _, rfl⟩ found everything split place hidden).mpr ?_
  intro last isLast
  rw [List.mem_singleton.mp isLast.marked]
  exact ⟨2, later, different⟩

def removedOnly : Session :=
  ({} : Config).session (.ofDocument ⟨[], []⟩ ⟨[]⟩ "unit.c"
    (Written.document
      [("", .define "A" "1"), ("", .function "f" (.reference "A")), ("\n", Written.undef "A"), ("", .object "A"),
        ("\n", .function "g" (.reference "A"))]))

set_option maxRecDepth 10000 in
/-- Nothing replaces the definition, so its removal is left out and the variable is printed while `A` is defined. -/
theorem removedOnly_stays_defined : ∃ extraction before chunk after,
    removedOnly.extract ["f", "g"] = .ok extraction ∧
    (∀ file : Nat, file < removedOnly.program.files.size →
      removedOnly.program.isFileExpanded removedOnly.keepIncludes file = true) ∧
    removedOnly.chunks extraction.closure extraction.kept = before ++ chunk :: after ∧
    chunk = ⟨.whole 3, "int A;".toList⟩ ∧ removedOnly.program.visibleDefinition? "A" ⟨3, 51⟩ = none ∧
    definitionIn removedOnly.program "A" before = some 0 := by
  let extraction : Extraction :=
    { closure :=
        { roots := [0, 2], decls := [0, 1, 2], macros := [0], needsUndef := [], renames := [], passSizes := [3] }
      kept := [0, 1, 2]
      text := ("#define A 1\n\nint f(void) \x7b return A; \x7d\n\nint A;\n\n" ++
        "int g(void) \x7b return A; \x7d\n").toList }
  let before : List Chunk :=
    [⟨.directive 0 0, "#define A 1\n".toList⟩, ⟨.whole 1, "int f(void) \x7b return A; \x7d".toList⟩]
  let after : List Chunk := [⟨.whole 4, "int g(void) \x7b return A; \x7d".toList⟩]
  refine ⟨extraction, before, ⟨.whole 3, "int A;".toList⟩, after, ?_⟩
  decide +kernel

end Session

end Excerpt
