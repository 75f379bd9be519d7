import Excerpt.Proofs.Draft.Written
import Excerpt.Proofs.Emission.Items
import Excerpt.Proofs.Text.Keywords
import Excerpt.Proofs.Text.Slices

/-!
The specifiers of a pointer: the text from the start of the item to the declarator of its symbol. For a later declarator
those in between come along.
-/

namespace Excerpt.Session

variable {session : Session} {closure : Closure} {kept : IdSet} {item : ItemId} {chunk : Chunk} {id : DeclId}

def pointerText (session : Session) (item : ItemId) (stop : Nat) (declarator : List Char) : List Char :=
  "static ".toList ++
    Text.stripStorage (session.program.text
      ⟨(session.program.item item).file, (session.program.item item).span.start, stop⟩) ++
    " ".toList ++ declarator ++ ";".toList

def firstDeclarator? (session : Session) (decls : List DeclId) : Option DeclaratorSpans :=
  ((session.declarators decls).filterMap fun id => (session.program.decl id).declarator).head?

theorem pointerText_inj {first second : Nat} {declarator : List Char} :
    session.pointerText item first declarator = session.pointerText item second declarator ↔
      Text.stripStorage (session.program.text
          ⟨(session.program.item item).file, (session.program.item item).span.start, first⟩) =
        Text.stripStorage (session.program.text
          ⟨(session.program.item item).file, (session.program.item item).span.start, second⟩) := by
  unfold pointerText
  generalize Text.stripStorage _ = one
  generalize Text.stripStorage _ = other
  rw [List.append_left_inj, List.append_left_inj, List.append_left_inj, List.append_right_inj]

theorem exists_pointerText {rename : Rename} (made : session.pointerChunk? item id rename = some chunk) :
    ∃ spans declarator, (session.program.decl id).declarator = some spans ∧
      session.program.pointerDeclarator? spans rename = some declarator ∧
      chunk = ⟨.pointer id item, session.pointerText item spans.full.start declarator⟩ := by
  obtain ⟨spans, named, printed⟩ := Option.bind_eq_some_iff.mp made
  obtain ⟨text, declared, rfl⟩ := Option.map_eq_some_iff.mp printed
  rw [Program.pointerDeclaration?, named, Option.bind_some, Option.map_eq_some_iff] at declared
  obtain ⟨declarator, replaced, rfl⟩ := declared
  exact ⟨spans, declarator, named, replaced, rfl⟩

theorem pointerChunk_eq_some {rename : Rename} : session.pointerChunk? item id rename = some chunk ↔
    ∃ spans before after, (session.program.decl id).declarator = some spans ∧
      spans.bare.start ≤ spans.name.start ∧ spans.bare.start ≤ spans.name.stop ∧
      Text.takeBytes? (spans.name.start - spans.bare.start) (session.program.text spans.bare) = some before ∧
      Text.dropBytes? (spans.name.stop - spans.bare.start) (session.program.text spans.bare) = some after ∧
      chunk = ⟨.pointer id item, session.pointerText item spans.full.start
        (before ++ "(*".toList ++ rename.pointer.toList ++ ")".toList ++ after)⟩ := by
  constructor
  · intro made
    obtain ⟨spans, declarator, named, replaced, rfl⟩ := exists_pointerText made
    rw [Program.pointerDeclarator?] at replaced
    split at replaced
    · next ordered =>
      split at replaced
      · next before after front back =>
        cases replaced
        exact ⟨spans, before, after, named, ordered.1, ordered.2, front, back, rfl⟩
      · cases replaced
    · cases replaced
  · intro facts
    obtain ⟨spans, before, after, named, starts, stops, front, back, rfl⟩ := facts
    simp only [pointerChunk?, named, Option.bind_some, Program.pointerDeclaration?, Program.pointerDeclarator?,
      if_pos (And.intro starts stops), front, back, Option.map_some]
    rfl

theorem pointer_of_origin (member : chunk ∈ session.chunks closure kept) (origin : chunk.origin = .pointer id item) :
    ∃ members rename, (session.program.item item).kind = .decls members ∧ id ∈ session.marked closure members ∧
      closure.renameFor? session.program id = some rename ∧ session.pointerChunk? item id rename = some chunk := by
  have holds : chunk.origin.declItem? = some item := by rw [origin]; rfl
  obtain ⟨-, members, opens, own⟩ := opens_of_mem member holds
  rcases List.mem_append.mp own with pointer | printed
  · obtain ⟨other, rename, marked, found, made⟩ := pointer_of_mem pointer
    have same := pointerChunk_origin made
    rw [origin] at same
    cases same
    exact ⟨members, rename, opens.kind, marked, found, made⟩
  · have plain : chunk ∈ (session.printedChunk? closure item members (session.splitParts closure item
        (session.doneBefore closure kept item) (session.marked closure members))).toList := printed
    have none := @printedChunk_chain session closure item members (session.splitParts closure item
      (session.doneBefore closure kept item) (session.marked closure members))
    have chain : chunk.origin.chain? session.program = some (session.program.decl id).chain := by rw [origin]; rfl
    have listed : (session.program.decl id).chain ∈ pointerChains session.program _ :=
      List.mem_filterMap.mpr ⟨chunk, plain, chain⟩
    rw [none] at listed
    cases listed

/-- A pointer is declared behind everything in its item up to the declarator of its symbol. That is the specifiers
alone when the symbol has the first declarator, and not when a character that is not part of a storage keyword stands
between the first declarator and its own. -/
theorem pointer_behind_own_declarator (member : chunk ∈ session.chunks closure kept)
    (origin : chunk.origin = .pointer id item) :
    ∃ members spans first name before after, (session.program.item item).kind = .decls members ∧ id ∈ members ∧
      (session.program.decl id).declarator = some spans ∧ (session.program.decl id).name = some name ∧
      session.firstDeclarator? members = some first ∧
      Text.takeBytes? (spans.name.start - spans.bare.start) (session.program.text spans.bare) = some before ∧
      Text.dropBytes? (spans.name.stop - spans.bare.start) (session.program.text spans.bare) = some after ∧
      chunk.text = session.pointerText item spans.full.start (before ++ ("(*klp_" ++ name ++ ")").toList ++ after) ∧
      ((session.declarators members).head? = some id → spans = first) ∧
      (session.program.text
          ⟨(session.program.item item).file, (session.program.item item).span.start, first.full.start⟩ ≠ [] →
        (∃ c ∈ session.program.text ⟨(session.program.item item).file, first.full.start, spans.full.start⟩,
          Text.isPlain c = true) →
        session.program.text
            ⟨(session.program.item item).file, (session.program.item item).span.start, spans.full.start⟩ =
          session.program.text
              ⟨(session.program.item item).file, (session.program.item item).span.start, first.full.start⟩ ++
            session.program.text ⟨(session.program.item item).file, first.full.start, spans.full.start⟩ ∧
        chunk.text ≠
          session.pointerText item first.full.start (before ++ ("(*klp_" ++ name ++ ")").toList ++ after)) := by
  obtain ⟨members, rename, kind, marked, found, made⟩ := pointer_of_origin member origin
  obtain ⟨listed, declares, -⟩ := mem_marked.mp marked
  obtain ⟨spans, before, after, named, -, -, front, back, rfl⟩ := pointerChunk_eq_some.mp made
  have symbol := (Closure.renameNamed_eq_some (Closure.renameFor_eq_some.mp found).1).2
  have own : id ∈ session.declarators members := List.mem_filter.mpr ⟨listed, declares⟩
  have text : "(*".toList ++ rename.pointer.toList ++ ")".toList = ("(*klp_" ++ rename.symbol ++ ")").toList := by
    simp [Rename.pointer]
  have printed : session.pointerText item spans.full.start
        (before ++ "(*".toList ++ rename.pointer.toList ++ ")".toList ++ after) =
      session.pointerText item spans.full.start (before ++ ("(*klp_" ++ rename.symbol ++ ")").toList ++ after) := by
    rw [← text, List.append_assoc before, List.append_assoc before]
  obtain ⟨first, isFirst⟩ : ∃ first, session.firstDeclarator? members = some first := by
    have present : spans ∈ (session.declarators members).filterMap fun id => (session.program.decl id).declarator :=
      List.mem_filterMap.mpr ⟨id, own, named⟩
    exact Option.isSome_iff_exists.mp (List.isSome_head?.mpr (List.ne_nil_of_mem present))
  refine ⟨members, spans, first, rename.symbol, before, after, kind, listed, named, symbol, isFirst, front, back,
    ?_, ?_, ?_⟩
  · exact printed
  · intro head
    obtain ⟨rest, shape⟩ := List.head?_eq_some_iff.mp head
    rw [firstDeclarator?, shape, List.filterMap_cons, named] at isFirst
    exact Option.some.inj isFirst
  · intro specified between
    obtain ⟨c, present, plain⟩ := between
    obtain ⟨starts, opening, middle⟩ := Text.cut_of_slice_ne_nil specified
    obtain ⟨follows, -, closing⟩ := Text.cut_of_slice_ne_nil (List.ne_nil_of_mem present)
    have joined := Text.slice_append opening middle closing starts follows
    refine ⟨joined, fun same => ?_⟩
    -- The character would occur more often on the left.
    have stripped := pointerText_inj.mp (printed.symm.trans same)
    have counted := congrArg (List.count c) stripped
    have positive := List.count_pos_iff.mpr present
    rw [Text.count_stripStorage plain, Text.count_stripStorage plain] at counted
    change List.count c (Text.slice _ _ _) = _ at counted
    rw [joined, List.count_append] at counted
    exact absurd counted (Nat.ne_of_gt (Nat.lt_add_of_pos_right positive))

def jointObjects : Session :=
  ({} : Config).session (.ofDocument ⟨[], []⟩ ⟨[]⟩ "unit.c"
    (Written.document
      [("", .group "declaration"
          [("", .group "storage_class_specifier" [("", .token "'static" "static")] ""),
            (" ", .token "type.primitive_type" "int"), (" ", .token "declarator.identifier" "a"),
            ("", .token "'," ","), (" ", .token "declarator.identifier" "b"), ("", .token "';" ";")] ""),
        ("\n", .function "f" (.reference "b"))]))

set_option maxRecDepth 10000 in
/-- The pointer for `b` is declared behind the declarator of `a`, and that is not the specifiers alone. -/
theorem pointer_behind_jointObjects : ∃ extraction chunk declarator, jointObjects.extract ["f"] = .ok extraction ∧
    chunk ∈ jointObjects.chunks extraction.closure extraction.kept ∧ chunk.origin = .pointer 1 0 ∧
    chunk.text = jointObjects.pointerText 0 14 declarator ∧ chunk.text ≠ jointObjects.pointerText 0 11 declarator := by
  let extraction : Extraction :=
    { closure :=
        { roots := [2], decls := [1, 2], macros := [], needsUndef := [], renames := [⟨"b", .var, 1⟩], passSizes := [2] }
      kept := [1, 2]
      text := "static int a, (*klp_b);\n\nint f(void) \x7b return (*klp_b); \x7d\n".toList }
  let chunk : Chunk := ⟨.pointer 1 0, "static int a, (*klp_b);".toList⟩
  have facts : jointObjects.extract ["f"] = .ok extraction ∧
      chunk ∈ jointObjects.chunks extraction.closure extraction.kept ∧
      (jointObjects.program.item 0).kind = .decls [0, 1] ∧
      (jointObjects.program.decl 1).declarator.map (·.full.start) = some 14 ∧
      (jointObjects.firstDeclarator? [0, 1]).map (·.full.start) = some 11 ∧
      jointObjects.program.text
        ⟨(jointObjects.program.item 0).file, (jointObjects.program.item 0).span.start, 11⟩ ≠ [] ∧
      (jointObjects.program.text ⟨(jointObjects.program.item 0).file, 11, 14⟩).any Text.isPlain = true := by
    decide +kernel
  obtain ⟨found, member, kind, own, head, specified, between⟩ := facts
  obtain ⟨members, spans, first, name, before, after, sameKind, -, named, -, isFirst, -, -, text, -, differs⟩ :=
    pointer_behind_own_declarator member rfl
  obtain rfl : members = [0, 1] := ItemKind.decls.inj (sameKind.symm.trans kind)
  rw [named] at own
  rw [isFirst] at head
  have ownStart : spans.full.start = 14 := Option.some.inj own
  have firstStart : first.full.start = 11 := Option.some.inj head
  rw [ownStart] at text differs
  rw [firstStart] at differs
  exact ⟨extraction, chunk, _, found, member, rfl, text, (differs specified (List.any_eq_true.mp between)).2⟩

set_option maxRecDepth 10000 in
/-- The output declares `a`, which nothing needs. -/
theorem jointObjects_declares_both : ∃ extraction, jointObjects.extract ["f"] = .ok extraction ∧
    0 ∉ extraction.closure.decls ∧
    extraction.text = "static int a, (*klp_b);\n\nint f(void) \x7b return (*klp_b); \x7d\n".toList := by
  let extraction : Extraction :=
    { closure :=
        { roots := [2], decls := [1, 2], macros := [], needsUndef := [], renames := [⟨"b", .var, 1⟩], passSizes := [2] }
      kept := [1, 2]
      text := "static int a, (*klp_b);\n\nint f(void) \x7b return (*klp_b); \x7d\n".toList }
  have found : jointObjects.extract ["f"] = .ok extraction := by decide +kernel
  exact ⟨extraction, found, by decide, rfl⟩

end Excerpt.Session
