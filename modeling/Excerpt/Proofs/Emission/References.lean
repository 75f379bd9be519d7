import Excerpt.Proofs.Closure.Pointers
import Excerpt.Proofs.Emission.Edits
import Excerpt.Proofs.Emission.Fidelity

/-!
References in the output to symbols that it has as pointers only. A use that is spelled in a printed body is replaced;
one in the replacement of a printed directive is not.
-/

namespace Excerpt

theorem intercalate_of_mem {separator text : List Char} {texts : List (List Char)} (member : text ∈ texts) :
    ∃ front back, List.intercalate separator texts = front ++ text ++ back := by
  induction texts with
  | nil => cases member
  | cons first rest ih =>
    cases rest with
    | nil =>
      rw [List.mem_singleton.mp member]
      exact ⟨[], [], by simp [List.intercalate]⟩
    | cons second rest =>
      rw [List.intercalate_cons_cons]
      rcases List.mem_cons.mp member with same | later
      · exact ⟨[], separator ++ List.intercalate separator (second :: rest), by simp [same]⟩
      · obtain ⟨front, back, split⟩ := ih later
        exact ⟨first ++ separator ++ front, back, by simp [split]⟩

namespace Session

variable {session : Session} {closure : Closure} {requested : List String} {kept : IdSet} {done : List ChainId}
  {item : ItemId} {chunk : Chunk}

/-- A chunk prints a declaration in full, with its whole item or by itself among chosen declarators. The span is the
text that it takes over. -/
inductive PrintsInFull (session : Session) (closure : Closure) (chunk : Chunk) (id : DeclId) : Span → Prop
  | whole {item : ItemId} {members : List DeclId} (origin : chunk.origin = .whole item)
      (kind : (session.program.item item).kind = .decls members) (member : id ∈ members) (marked : id ∈ closure.decls)
      (named : (session.program.decl id).declarator.isSome = true)
      (plain : closure.renameFor? session.program id = none) :
      PrintsInFull session closure chunk id (session.program.item item).span
  | selection {item : ItemId} {members : List DeclId} {spans : DeclaratorSpans}
      (origin : chunk.origin = .selection item)
      (kind : (session.program.item item).kind = .decls members) (member : id ∈ members) (marked : id ∈ closure.decls)
      (named : (session.program.decl id).declarator = some spans)
      (plain : closure.renameFor? session.program id = none) : PrintsInFull session closure chunk id spans.full

theorem mem_printed {decls : List DeclId} {id : DeclId} :
    id ∈ (session.splitParts closure item done decls).printed ↔
      id ∈ decls ∧ closure.renameFor? session.program id = none := by
  fun_induction splitParts session closure item done decls with
  | case1 done => simp
  | case2 done first rest plain parts ih =>
    simp only [List.mem_cons, parts, ih]
    constructor
    · rintro (rfl | ⟨member, missing⟩)
      · exact ⟨.inl rfl, plain⟩
      · exact ⟨.inr member, missing⟩
    · rintro ⟨rfl | member, missing⟩
      · exact .inl rfl
      · exact .inr ⟨member, missing⟩
  | case3 done first rest rename found chain known ih =>
    rw [ih, List.mem_cons]
    have other : closure.renameFor? session.program id = none → id ≠ first := by
      rintro missing rfl
      rw [found] at missing
      cases missing
    tauto
  | case4 done first rest rename found chain fresh parts ih =>
    simp only [List.mem_cons, parts, ih]
    have other : closure.renameFor? session.program id = none → id ≠ first := by
      rintro missing rfl
      rw [found] at missing
      cases missing
    tauto

theorem exists_item_of_mem {items : List ItemId} (member : chunk ∈ session.chunksFrom closure kept done items) :
    ∃ item ∈ items, ∃ done, chunk ∈ (session.itemChunks closure kept done item).1 := by
  induction items generalizing done with
  | nil => cases member
  | cons first rest ih =>
    rw [chunksFrom_cons] at member
    rcases List.mem_append.mp member with own | later
    · exact ⟨first, List.mem_cons_self, done, own⟩
    · obtain ⟨item, listed, done, present⟩ := ih later
      exact ⟨item, List.mem_cons_of_mem _ listed, done, present⟩

theorem mem_chunksFrom {items : List ItemId} (listed : item ∈ items)
    (present : ∀ done, chunk ∈ (session.itemChunks closure kept done item).1) :
    chunk ∈ session.chunksFrom closure kept done items := by
  induction items generalizing done with
  | nil => cases listed
  | cons first rest ih =>
    rw [chunksFrom_cons]
    rcases List.mem_cons.mp listed with rfl | later
    · exact List.mem_append_left _ (present done)
    · exact List.mem_append_right _ (ih later)

theorem printedChunk_of_mem {target : ItemId} (member : chunk ∈ (session.itemChunks closure kept done item).1)
    (full : chunk.origin = .whole target ∨ chunk.origin = .selection target) :
    target = item ∧ ∃ members, (session.program.item item).kind = .decls members ∧
      session.printedChunk? closure item members (session.splitParts closure item done
        ((session.declarators members).filter closure.decls.contains)) = some chunk := by
  -- Removals, inclusions, directives and pointers have origins of their own.
  have notUndef : chunk ∉ session.undefChunks closure item := by
    intro removal
    obtain ⟨name, -, rfl⟩ := List.mem_map.mp removal
    simp at full
  unfold itemChunks at member
  dsimp only at member
  rw [← undefChunks] at member
  split at member
  · split at member
    · split_ifs at member
      · simp only [List.mem_append, notUndef, List.mem_singleton, false_or] at member
        simp [member] at full
      · exact absurd member notUndef
    · split_ifs at member
      · simp only [List.mem_append, notUndef, List.mem_singleton, false_or] at member
        simp [member] at full
      · exact absurd member notUndef
    · next members kind =>
      split_ifs at member
      · simp only [List.mem_append, notUndef, false_or, declChunks, Option.mem_toList] at member
        rcases member with pointer | printed
        · obtain ⟨id, origin⟩ := pointers_origin _ chunk pointer
          simp [origin] at full
        · have holds := printedChunk_declItem printed
          have same : target = item := by
            rcases full with origin | origin <;> rw [origin] at holds <;> exact Option.some.inj holds
          exact ⟨same, members, kind, printed⟩
      · exact absurd member notUndef
    · exact absurd member notUndef
  · exact absurd member notUndef

theorem printedChunk_whole {decls : List DeclId} {parts : ItemParts}
    (found : session.printedChunk? closure item decls parts = some chunk) (origin : chunk.origin = .whole item) :
    chunk.text =
      Edit.applyAll session.program (session.program.item item).span (closure.edits session.program parts.printed) := by
  unfold printedChunk? at found
  dsimp only at found
  split_ifs at found <;> cases found
  · rfl
  · cases origin
  · cases origin

theorem printedChunk_selection {decls : List DeclId} {parts : ItemParts}
    (found : session.printedChunk? closure item decls parts = some chunk) (origin : chunk.origin = .selection item)
    {id : DeclId} (printed : id ∈ parts.printed) {spans : DeclaratorSpans}
    (named : (session.program.decl id).declarator = some spans) :
    ∃ front back, chunk.text =
      front ++ Edit.applyAll session.program spans.full (closure.edits session.program parts.printed) ++ back := by
  unfold printedChunk? at found
  dsimp only at found
  split_ifs at found <;> cases found
  · cases origin
  · cases origin
  · have listed : Edit.applyAll session.program spans.full (closure.edits session.program parts.printed) ∈
        (parts.printed.filterMap fun id => (session.program.decl id).declarator).map
          fun spans => Edit.applyAll session.program spans.full (closure.edits session.program parts.printed) :=
      List.mem_map_of_mem (List.mem_filterMap.mpr ⟨id, printed, named⟩)
    obtain ⟨front, back, split⟩ := @intercalate_of_mem [',', ' '] _ _ listed
    dsimp only
    generalize session.program.text _ = specifiers
    exact ⟨specifiers ++ front, back ++ [';'], by simp [split]⟩

/-- The text of a declaration printed in full is its source with the edits of all that the item prints. -/
theorem PrintsInFull.shown {id : DeclId} {span : Span} (prints : session.PrintsInFull closure chunk id span)
    (member : chunk ∈ session.chunks closure kept) :
    ∃ printed front back, id ∈ printed ∧ (∀ other ∈ printed, other ∈ closure.decls) ∧
      chunk.text = front ++ Edit.applyAll session.program span (closure.edits session.program printed) ++ back := by
  obtain ⟨item, -, done, own⟩ := exists_item_of_mem member
  have marked_of_printed : ∀ {members other},
      other ∈ (session.splitParts closure item done
        ((session.declarators members).filter closure.decls.contains)).printed → other ∈ closure.decls := by
    intro members other printed
    have listed := (mem_printed.mp printed).1
    simpa using (List.mem_filter.mp listed).2
  have mem_of_plain : ∀ {members}, id ∈ members → id ∈ closure.decls →
      (session.program.decl id).declarator.isSome = true →
      closure.renameFor? session.program id = none → id ∈ (session.splitParts closure item done
        ((session.declarators members).filter closure.decls.contains)).printed := by
    intro members member marked named plain
    refine mem_printed.mpr ⟨?_, plain⟩
    simp [declarators, member, named, marked]
  cases prints with
  | whole origin kind member marked named plain =>
    obtain ⟨rfl, members, sameKind, found⟩ := printedChunk_of_mem own (.inl origin)
    obtain rfl : members = _ := ItemKind.decls.inj (sameKind.symm.trans kind)
    refine ⟨_, [], [], mem_of_plain member marked named plain, fun other => marked_of_printed, ?_⟩
    rw [printedChunk_whole found origin]
    simp
  | selection origin kind member marked named plain =>
    obtain ⟨rfl, members, sameKind, found⟩ := printedChunk_of_mem own (.inr origin)
    obtain rfl : members = _ := ItemKind.decls.inj (sameKind.symm.trans kind)
    have printed := mem_of_plain member marked (by rw [named]; rfl) plain
    obtain ⟨front, back, split⟩ := printedChunk_selection found origin printed named
    exact ⟨_, front, back, printed, fun other => marked_of_printed, split⟩

section Closures

variable (consistent : session.program.Consistent)
include consistent

/-- A use in a printed body is replaced, unless it starts inside one that was replaced before it. -/
theorem PrintsInFull.replaces {id : DeclId} {span : Span} {edit : Edit}
    (prints : session.PrintsInFull closure chunk id span) (member : chunk ∈ session.chunks closure kept)
    (called : closure.CallsFor session.program id edit) (within : edit.span.isWithin span = true) :
    (∃ front text back, chunk.text = front ++ text ++ back ∧ edit.MadeIn session.program span text) ∨
      ∃ user ∈ closure.decls, ∃ other, closure.CallsFor session.program user other ∧ other ≠ edit ∧
        other.Covers edit := by
  obtain ⟨printed, front, back, own, marked, text⟩ := prints.shown member
  have listed : edit ∈ closure.edits session.program printed :=
    (Closure.mem_edits consistent.locals).mpr ⟨id, own, called⟩
  rcases Edit.madeIn_or_covered
    (Closure.edits_sorted printed) listed within with made | ⟨other, known, different, covers⟩
  · exact .inl ⟨front, _, back, text, made⟩
  · obtain ⟨user, present, calls⟩ := (Closure.mem_edits consistent.locals).mp known
    exact .inr ⟨user, marked user present, other, calls, different, covers⟩

theorem mem_macros_iff (found : session.closure requested = .ok closure) {directive : MacroId} :
    directive ∈ closure.macros ↔ ∃ user ∈ closure.decls, ∃ occurrence ∈ session.scannedUses requested user,
      session.Expands occurrence.name occurrence.pos directive := by
  have obeys := closure_obeys consistent found
  constructor
  · intro marked
    have restricted : session.Obeys requested { id | id ∈ closure.decls }
        { directive | directive ∈ closure.macros ∧ ∃ user ∈ closure.decls,
          ∃ occurrence ∈ session.scannedUses requested user,
            session.Expands occurrence.name occurrence.pos directive } :=
      { requests := obeys.requests
        declarations := obeys.declarations
        bodies := obeys.bodies
        uses := fun id marked occurrence scanned directive expands =>
          ⟨obeys.uses id marked occurrence scanned directive expands, id, marked, occurrence, scanned, expands⟩
        replacements := fun directive marked => obeys.replacements directive marked.1 }
    exact ((closure_subset consistent found restricted).2 directive marked).2
  · intro used
    obtain ⟨user, marked, occurrence, scanned, expands⟩ := used
    exact obeys.uses user marked occurrence scanned directive expands

theorem symbol_mem_renames_iff (found : session.closure requested = .ok closure) {name : String} :
    (∃ rename ∈ closure.renames, rename.symbol = name) ↔ ∃ symbol ∈ closure.decls,
      session.isExternalized requested symbol = true ∧ (session.program.decl symbol).name = some name := by
  constructor
  · intro facts
    obtain ⟨rename, member, rfl⟩ := facts
    obtain ⟨symbol, marked, external, named, -⟩ := exists_externalized consistent found member
    exact ⟨symbol, marked, external, named⟩
  · intro facts
    obtain ⟨symbol, marked, external, named⟩ := facts
    obtain ⟨rename, lookup⟩ := exists_renameNamed consistent found marked external
    obtain ⟨member, same⟩ := Closure.renameNamed_eq_some lookup
    exact ⟨rename, member, Option.some.inj (same.symm.trans named)⟩

end Closures

/-- The directives of the output are the marked ones in expanded text. -/
theorem directive_printed_iff (read : session.IsRead) (found : session.closure requested = .ok closure)
    {directive : MacroId} :
    (∃ chunk ∈ session.chunks closure kept, ∃ item, chunk.origin = .directive directive item) ↔
      directive ∈ closure.macros ∧ session.isMacroExpanded directive = true := by
  have unit := read.unrolled
  constructor
  · intro facts
    obtain ⟨chunk, member, target, origin⟩ := facts
    obtain ⟨item, listed, done, own⟩ := exists_item_of_mem member
    obtain ⟨tail, shape, form⟩ := session.itemChunks_eq closure kept done item
    rw [shape, List.mem_append] at own
    rcases own with removal | inTail
    · obtain ⟨name, -, rfl⟩ := List.mem_map.mp removal
      cases origin
    · cases form with
      | decls expanded kind origins =>
        have holds := origins chunk inTail
        rw [origin] at holds
        cases holds
      | directive printed =>
        rw [List.mem_singleton.mp inTail] at origin
        cases origin
        obtain ⟨expanded, -, -⟩ := printedDirective_eq_some.mp printed
        obtain ⟨inside, place, marked⟩ := item_of_printed unit (List.mem_range.mp listed) printed
        obtain ⟨-, -, seq⟩ := Program.directive_item unit inside
        refine ⟨marked, ?_⟩
        rw [← place, ← seq] at expanded
        exact expanded
      | inclusion silent =>
        rw [List.mem_singleton.mp inTail] at origin
        cases origin
      | empty silent => cases inTail
  · intro facts
    obtain ⟨marked, expanded⟩ := facts
    have inside := (isDefine_of_marked read found directive marked).1
    obtain ⟨within, kind, seq⟩ := Program.directive_item unit inside
    have fileExpanded : session.program.isFileExpanded session.keepIncludes
        (session.program.item (session.program.directive directive).item).file = true := by
      rw [← seq]
      exact expanded
    refine ⟨⟨.directive directive (session.program.directive directive).item,
      session.program.text (session.program.item (session.program.directive directive).item).span⟩, ?_, _, rfl⟩
    apply mem_chunksFrom (List.mem_range.mpr within)
    intro done
    simp [itemChunks, fileExpanded, kind, marked]

/-- Spelled uses of pointers are replaced in everything that is printed in full. The printed directives are free of the
names of pointers if and only if no macro that a marked declaration expands has such a name in its replacement. -/
theorem references_through_pointers_iff {extraction : Extraction} (read : session.IsRead)
    (found : session.extract requested = .ok extraction) :
    (∀ chunk ∈ session.chunks extraction.closure extraction.kept, ∀ id span,
      session.PrintsInFull extraction.closure chunk id span → ∀ edit,
      extraction.closure.CallsFor session.program id edit → edit.span.isWithin span = true →
      (∃ front text back, chunk.text = front ++ text ++ back ∧ edit.MadeIn session.program span text) ∨
      ∃ user ∈ extraction.closure.decls, ∃ other, extraction.closure.CallsFor session.program user other ∧
        other ≠ edit ∧ other.Covers edit) ∧
    ((∀ chunk ∈ session.chunks extraction.closure extraction.kept, ∀ directive item,
      chunk.origin = .directive directive item → ∀ rename ∈ extraction.closure.renames,
      rename.symbol ∉ (session.program.directive directive).names) ↔
    ∀ user ∈ extraction.closure.decls, ∀ occurrence ∈ session.scannedUses requested user, ∀ directive,
      session.Expands occurrence.name occurrence.pos directive → session.isMacroExpanded directive = true →
      ∀ symbol ∈ extraction.closure.decls, session.isExternalized requested symbol = true →
      ∀ name ∈ (session.program.decl symbol).name, name ∉ (session.program.directive directive).names) := by
  have consistent := read.consistent
  have closed := extract_eq_ok found
  refine ⟨fun chunk member id span prints edit => prints.replaces consistent member, ?_⟩
  constructor
  · intro free user marked occurrence scanned directive expands expanded symbol symbolMarked external name named
    have used := (mem_macros_iff consistent closed).mpr ⟨user, marked, occurrence, scanned, expands⟩
    obtain ⟨chunk, member, item, origin⟩ := (directive_printed_iff read closed).mpr ⟨used, expanded⟩
    obtain ⟨rename, known, rfl⟩ :=
      (symbol_mem_renames_iff consistent closed).mpr ⟨symbol, symbolMarked, external, named⟩
    exact free chunk member directive item origin rename known
  · intro apart chunk member directive item origin rename known
    obtain ⟨marked, expanded⟩ := (directive_printed_iff read closed).mp ⟨chunk, member, item, origin⟩
    obtain ⟨user, userMarked, occurrence, scanned, expands⟩ := (mem_macros_iff consistent closed).mp marked
    obtain ⟨symbol, symbolMarked, external, named⟩ := (symbol_mem_renames_iff consistent closed).mp ⟨rename, known, rfl⟩
    exact apart user userMarked occurrence scanned directive expands expanded symbol symbolMarked external _ named

def spelledCall : Session :=
  ({} : Config).session (.ofDocument ⟨[], []⟩ ⟨[]⟩ "unit.c"
    (Written.document
      [("", .staticFunction "g" (.token "number_literal" "1")), ("\n", .define "N" "2"),
        ("", .function "f" (.call "g")), ("\n", .function "h" (.reference "N"))]))

set_option maxRecDepth 10000 in
/-- The call in `f` goes through the pointer, and the one printed directive names no symbol. -/
theorem references_spelledCall : ∃ extraction chunk front text back, spelledCall.extract ["f", "h"] = .ok extraction ∧
    chunk ∈ spelledCall.chunks extraction.closure extraction.kept ∧ chunk.origin = .whole 2 ∧
    chunk.text = front ++ text ++ back ∧
    Edit.MadeIn ⟨⟨0, 66, 67⟩, "klp_g".toList⟩ spelledCall.program (spelledCall.program.item 2).span text ∧
    (∃ chunk ∈ spelledCall.chunks extraction.closure extraction.kept, chunk.origin = .directive 0 1) ∧
    ∀ chunk ∈ spelledCall.chunks extraction.closure extraction.kept, ∀ directive item,
      chunk.origin = .directive directive item → ∀ rename ∈ extraction.closure.renames,
      rename.symbol ∉ (spelledCall.program.directive directive).names := by
  let closure : Closure :=
    { roots := [1, 2], decls := [0, 1, 2], macros := [0], needsUndef := [], renames := [⟨"g", .function, 0⟩],
      passSizes := [3] }
  let extraction : Extraction :=
    { closure, kept := [0, 1, 2]
      text := ("static int (*klp_g)(void);\n\n#define N 2\n\nint f(void) \x7b return klp_g(); \x7d\n\n" ++
        "int h(void) \x7b return N; \x7d\n").toList }
  let edit : Edit := ⟨⟨0, 66, 67⟩, "klp_g".toList⟩
  let chunk : Chunk := ⟨.whole 2, "int f(void) \x7b return klp_g(); \x7d".toList⟩
  have facts : spelledCall.extract ["f", "h"] = .ok extraction ∧
      chunk ∈ spelledCall.chunks closure extraction.kept ∧
      (∃ chunk ∈ spelledCall.chunks closure extraction.kept, chunk.origin = .directive 0 1) ∧
      (spelledCall.program.item 2).kind = .decls [1] ∧ (spelledCall.program.decl 1).declarator.isSome = true ∧
      closure.renameFor? spelledCall.program 1 = none ∧ closure.edits spelledCall.program [1] = [edit] ∧
      closure.edits spelledCall.program closure.decls = [edit] ∧
      edit.span.isWithin (spelledCall.program.item 2).span = true ∧
      ∀ user ∈ closure.decls, ∀ occurrence ∈ spelledCall.scannedUses ["f", "h"] user,
        ∀ directive ∈ spelledCall.expansion occurrence.name occurrence.pos,
        (spelledCall.program.directive directive).names = [] := by
    decide +kernel
  obtain ⟨found, member, directive, kind, named, plain, own, all, within, empty⟩ := facts
  have read : spelledCall.IsRead := ⟨_, _, _, _, rfl⟩
  have ordered := read.consistent.locals
  obtain ⟨replaced, free⟩ := references_through_pointers_iff read found
  have prints : spelledCall.PrintsInFull closure chunk 1 (spelledCall.program.item 2).span :=
    .whole rfl kind (by decide) (by decide) named plain
  have called : closure.CallsFor spelledCall.program 1 edit := by
    have listed : edit ∈ closure.edits spelledCall.program [1] := by simp [own]
    obtain ⟨id, only, called⟩ := (Closure.mem_edits ordered).mp listed
    exact List.mem_singleton.mp only ▸ called
  rcases replaced chunk member 1 _ prints edit called within with ⟨front, text, back, split, made⟩
    | ⟨user, marked, other, calls, different, -⟩
  · refine ⟨extraction, chunk, front, text, back, found, member, rfl, split, made, directive, free.mpr ?_⟩
    intro user marked occurrence scanned directive expands _ symbol _ _ name _
    rw [empty user marked occurrence scanned directive (mem_expansion.mpr expands)]
    exact List.not_mem_nil
  · -- The bodies call for no other edit.
    have listed := (Closure.mem_edits ordered).mpr ⟨user, marked, calls⟩
    rw [all] at listed
    exact absurd (List.mem_singleton.mp listed) different

def callBehindMacro : Session :=
  ({} : Config).session (.ofDocument ⟨[], []⟩ ⟨[]⟩ "unit.c"
    (Written.document
      [("", .staticFunction "g" (.token "number_literal" "1")), ("\n", .define "M" "g()"),
        ("", .function "f" (.reference "M"))]))

set_option maxRecDepth 10000 in
/-- The directive is printed as it stands and calls `g`, of which the output has the pointer only. -/
theorem callBehindMacro_dangles : ∃ extraction, callBehindMacro.extract ["f"] = .ok extraction ∧
    (∃ chunk ∈ callBehindMacro.chunks extraction.closure extraction.kept,
      chunk.origin = .directive 0 1 ∧ chunk.text = "#define M g()\n".toList) ∧
    (∃ rename ∈ extraction.closure.renames, rename.symbol ∈ (callBehindMacro.program.directive 0).names) ∧
    extraction.text =
      "static int (*klp_g)(void);\n\n#define M g()\n\nint f(void) \x7b return M; \x7d\n".toList := by
  let extraction : Extraction :=
    { closure :=
        { roots := [1], decls := [0, 1], macros := [0], needsUndef := [], renames := [⟨"g", .function, 0⟩],
          passSizes := [2] }
      kept := [0, 1]
      text := "static int (*klp_g)(void);\n\n#define M g()\n\nint f(void) \x7b return M; \x7d\n".toList }
  have facts : callBehindMacro.extract ["f"] = .ok extraction ∧
      (∃ chunk ∈ callBehindMacro.chunks extraction.closure extraction.kept,
        chunk.origin = .directive 0 1 ∧ chunk.text = "#define M g()\n".toList) ∧
      ∃ rename ∈ extraction.closure.renames, rename.symbol ∈ (callBehindMacro.program.directive 0).names := by
    decide +kernel
  obtain ⟨found, printed, named⟩ := facts
  exact ⟨extraction, found, printed, named, rfl⟩

end Session

end Excerpt
