import Excerpt.Proofs.Closure.Chains
import Excerpt.Proofs.Emission.Sources

/-!
What the output holds of the marked declarations. An item is looked at when one of its declarations at file scope is
outermost.
-/

namespace Excerpt

namespace Program

/-- No function body that an item lists reaches into the span. -/
def Clears (program : Program) (span : Span) (item : ItemId) : Prop :=
  ∀ id ∈ program.membersOf item, (program.decl id).kind.isFunction = true → ∀ body ∈ (program.decl id).kind.body?,
    body.span.stop ≤ span.start ∨ span.stop ≤ body.span.start

instance (program : Program) (span : Span) (item : ItemId) : Decidable (program.Clears span item) :=
  inferInstanceAs (Decidable (∀ id ∈ program.membersOf item, _ → ∀ body ∈ (program.decl id).kind.body?, _))

variable {program : Program}

theorem text_within {outer inner : Span} (within : inner.isWithin outer = true)
    (opens : Text.IsBoundary (program.file outer.file).text outer.start)
    (closes : Text.IsBoundary (program.file outer.file).text outer.stop) :
    ∃ front back, program.text outer = front ++ program.text inner ++ back := by
  obtain ⟨file, start, stop⟩ := isWithin_iff.mp within
  by_cases empty : program.text inner = []
  · exact ⟨program.text outer, [], by simp [empty]⟩
  · obtain ⟨ordered, first, last⟩ := Text.cut_of_slice_ne_nil empty
    rw [file] at first last
    refine ⟨Text.slice (program.file outer.file).text outer.start inner.start,
      Text.slice (program.file outer.file).text inner.stop outer.stop, ?_⟩
    rw [text, text, file, Text.slice_append opens first closes start (ordered.trans stop),
      Text.slice_append first last closes ordered stop, List.append_assoc]

end Program

/-- Edits elsewhere leave a stretch of the text as it is. -/
theorem Edit.applyFrom_of_apart {program : Program} {host span : Span} {edits : List Edit} {cursor : Nat}
    (file : span.file = host.file) (reached : cursor ≤ span.start) (behind : span.stop ≤ host.stop)
    (opens : Text.IsBoundary (program.file host.file).text cursor)
    (closes : Text.IsBoundary (program.file host.file).text host.stop)
    (cut : ∀ edit ∈ edits, Text.IsBoundary (program.file host.file).text edit.span.start ∧
      Text.IsBoundary (program.file host.file).text edit.span.stop)
    (apart : ∀ edit ∈ edits, edit.span.stop ≤ span.start ∨ span.stop ≤ edit.span.start) :
    ∃ front back, applyFrom program host cursor edits = front ++ program.text span ++ back := by
  induction edits generalizing cursor with
  | nil => exact Program.text_within (Program.isWithin_iff.mpr ⟨file, reached, behind⟩) opens closes
  | cons edit rest ih =>
    obtain ⟨cutFirst, cutRest⟩ := List.forall_mem_cons.mp cut
    obtain ⟨apartFirst, apartRest⟩ := List.forall_mem_cons.mp apart
    rw [applyFrom]
    split_ifs with passed
    · exact ih reached opens cutRest apartRest
    · rcases apartFirst with before | after
      · obtain ⟨front, back, split⟩ := ih before cutFirst.2 cutRest apartRest
        rw [split]
        exact ⟨program.text ⟨host.file, cursor, edit.span.start⟩ ++ edit.text ++ front, back,
          by simp only [List.append_assoc]⟩
      · have inside : span.isWithin ⟨host.file, cursor, edit.span.start⟩ = true :=
          Program.isWithin_iff.mpr ⟨file, reached, after⟩
        obtain ⟨front, back, split⟩ := Program.text_within inside opens cutFirst.1
        rw [split]
        exact ⟨front, back ++ edit.text ++ applyFrom program host edit.span.stop rest, by simp only [List.append_assoc]⟩

namespace Session

/-- An outermost marked declaration at file scope belongs to the item. -/
def Shows (session : Session) (closure : Closure) (item : ItemId) : Prop :=
  ∃ id, session.program.IsOutermost closure.decls id ∧ (session.program.decl id).context = none ∧
    (session.program.decl id).item = item

/-- The chunk prints a declaration: its whole item, or the specifiers and a list of declarators with its own; uses of
symbols behind pointers are replaced. -/
inductive Prints (session : Session) (closure : Closure) (chunk : Chunk) (id : DeclId) : Prop
  | whole (origin : chunk.origin = .whole (session.program.decl id).item)
      (text : chunk.text = Edit.applyAll session.program (session.program.item (session.program.decl id).item).span
        (closure.edits session.program (session.stays closure (session.program.decl id).item)))
  | selection {spans : DeclaratorSpans} {texts : List (List Char)}
      (origin : chunk.origin = .selection (session.program.decl id).item)
      (named : (session.program.decl id).declarator = some spans)
      (listed : Edit.applyAll session.program spans.full
        (closure.edits session.program (session.stays closure (session.program.decl id).item)) ∈ texts)
      (text : chunk.text = session.program.text (session.specifiers (session.program.decl id).item) ++
        List.intercalate [',', ' '] texts ++ [';'])

/-- The text holds a part, as it is or in what keywords are removed from. -/
def HoldsPart (part text : List Char) : Prop :=
  ∃ strip ∈ [id, Text.stripStorage, Text.stripStorageAndTypedef], ∃ lead front back tail,
    text = lead ++ strip (front ++ part ++ back) ++ tail

variable {session : Session} {closure : Closure} {kept : IdSet} {requested : List String} {extraction : Extraction}

theorem extract_kept (found : session.extract requested = .ok extraction) :
    session.program.outermost extraction.closure.decls = .ok extraction.kept ∧
      extraction.text = renderChunks (session.chunks extraction.closure extraction.kept) := by
  unfold extract at found
  split at found
  · cases found
  · split at found
    · cases found
    · next outermost =>
      cases found
      exact ⟨outermost, rfl⟩

section Sound

variable (sound : session.IsSound) (found : session.extract requested = .ok extraction)
include sound found

theorem extract_lt {id : DeclId} (marked : id ∈ extraction.closure.decls) : id < session.program.decls.size :=
  closure_lt sound.isRead.consistent (extract_eq_ok found) marked

theorem mem_kept {id : DeclId} : id ∈ extraction.kept ↔ session.program.IsOutermost extraction.closure.decls id :=
  Program.mem_outermost (fun _ marked => (sound.laid.span_within (extract_lt sound found marked)).2)
    (extract_kept found).1

/-- An item in expanded text is looked at exactly when it has an outermost declaration at file scope. -/
theorem opens_iff_shows {item : Nat} (known : item < session.program.items.size)
    (expanded : session.program.isFileExpanded session.keepIncludes (session.program.item item).file = true) :
    (∃ members, session.Opens extraction.kept item members) ↔ session.Shows extraction.closure item := by
  constructor
  · intro opens
    obtain ⟨members, opens⟩ := opens
    obtain ⟨id, listed, outermost⟩ := List.any_eq_true.mp opens.shown
    obtain ⟨-, same, outer⟩ := (sound.laid.mem_members known opens.kind).mp listed
    exact ⟨id, (mem_kept sound found).mp (List.contains_iff_mem.mp outermost), outer, same⟩
  · intro shows
    obtain ⟨id, outermost, outer, rfl⟩ := shows
    obtain ⟨members, kind, listed⟩ := sound.laid.exists_members (extract_lt sound found outermost.1) outer
    refine ⟨members, expanded, kind, List.any_eq_true.mpr ⟨id, listed, ?_⟩⟩
    exact List.contains_iff_mem.mpr ((mem_kept sound found).mpr outermost)

theorem shows_of_mem {item : ItemId} {chunk : Chunk}
    (member : chunk ∈ session.chunks extraction.closure extraction.kept) (holds : chunk.origin.declItem? = some item) :
    session.Shows extraction.closure item := by
  obtain ⟨known, members, opens, -⟩ := opens_of_mem member holds
  exact (opens_iff_shows sound found known opens.expanded).mp ⟨members, opens⟩

/-- A marked declaration that takes up its whole item is looked at always. Of equal spans the first counts. -/
theorem shows_of_span {id : DeclId} (marked : id ∈ extraction.closure.decls)
    (outer : (session.program.decl id).context = none) (full : ¬(session.program.decl id).kind.IsForward)
    (span : (session.program.decl id).span = (session.program.item (session.program.decl id).item).span) :
    session.Shows extraction.closure (session.program.decl id).item := by
  have laid := sound.laid
  have known := extract_lt sound found marked
  obtain ⟨top, outermost, order, within⟩ := @Program.exists_isOutermost session.program _ _ marked
  have topKnown := extract_lt sound found outermost.1
  have topWithin := (laid.span_within topKnown).1
  have itemKnown := (laid.holds known).1
  have filled := laid.item_filled itemKnown
  rw [span] at within
  obtain ⟨file, start, stop⟩ := Program.isWithin_iff.mp within
  obtain ⟨topFile, topStart, topStop⟩ := Program.isWithin_iff.mp topWithin
  have same : (session.program.decl top).item = (session.program.decl id).item := by
    refine laid.item_unique filled (laid.holds topKnown).1 itemKnown ?_ ?_
    · exact Program.isWithin_iff.mpr ⟨file.trans topFile, topStart.trans start, stop.trans topStop⟩
    · exact Program.isWithin_iff.mpr ⟨rfl, Nat.le_refl _, Nat.le_refl _⟩
  by_cases topOuter : (session.program.decl top).context = none
  · exact ⟨top, outermost, topOuter, same⟩
  · -- Of equal spans the first counts, and behind a declaration in a body only the first mention of a tag is at file
    -- scope.
    rw [same] at topStart topStop
    have notAfter : top ≤ id := by
      rcases Program.spanOrder_iff.mp order with lower | ⟨-, earlier | ⟨-, longer | ⟨-, atMost⟩⟩⟩
      · rw [span, file] at lower
        exact absurd lower (Nat.lt_irrefl _)
      · rw [span] at earlier
        exact absurd earlier (Nat.not_lt.mpr topStart)
      · rw [span] at longer
        exact absurd longer (Nat.not_lt.mpr topStop)
      · exact atMost
    have differs : top ≠ id := fun equal => topOuter (equal ▸ outer)
    exact absurd (laid.order top id (Nat.lt_of_le_of_ne notAfter differs) known same topOuter outer) full

end Sound

theorem isDeclExpanded_eq (laid : session.program.Laid .sound) {id : DeclId} (known : id < session.program.decls.size) :
    session.isDeclExpanded id =
      session.program.isFileExpanded session.keepIncludes
        (session.program.item (session.program.decl id).item).file := by
  rw [isDeclExpanded, isExpanded, Program.isExpanded, Program.fileOf, laid.seq known]

theorem mem_stays_of_marked (laid : session.program.Laid .sound) {id : DeclId} (known : id < session.program.decls.size)
    (marked : id ∈ closure.decls) (outer : (session.program.decl id).context = none)
    (sort : (session.program.decl id).kind.sort = .symbol ∨ (session.program.decl id).kind.sort = .typeName)
    (plain : closure.renameFor? session.program id = none) :
    id ∈ session.stays closure (session.program.decl id).item := by
  obtain ⟨members, kind, listed⟩ := laid.exists_members known outer
  apply mem_stays.mpr
  rw [membersOf_eq kind]
  exact ⟨listed, Option.isSome_iff_exists.mpr (laid.declarator known outer sort), marked, plain⟩

theorem Opens.mem_chunks {item : Nat} {members : List DeclId} {chunk : Chunk}
    (known : item < session.program.items.size) (opens : session.Opens kept item members)
    (own : chunk ∈ (session.declChunks closure (session.doneBefore closure kept item) item members).1) :
    chunk ∈ session.chunks closure kept ∧ chunk.origin.declItem? = some item := by
  rw [← opens.filter_chunks known] at own
  obtain ⟨member, holds⟩ := List.mem_filter.mp own
  exact ⟨member, beq_iff_eq.mp holds⟩

/-- Each marked declaration of an item that is looked at, and that is no pointer, is printed. -/
theorem Opens.exists_prints {id : DeclId} {members : List DeclId}
    (known : (session.program.decl id).item < session.program.items.size)
    (opens : session.Opens kept (session.program.decl id).item members)
    (stay : id ∈ session.stays closure (session.program.decl id).item) :
    ∃ chunk ∈ session.chunks closure kept, session.Prints closure chunk id := by
  obtain ⟨rest, shape, form⟩ := @declChunks_form session closure
    (session.doneBefore closure kept (session.program.decl id).item) _ members opens.kind
  have present : ∀ chunk ∈ rest, chunk ∈ session.chunks closure kept := by
    intro chunk member
    refine (opens.mem_chunks known ?_).1
    rw [shape]
    exact List.mem_append_right _ member
  cases form with
  | whole => exact ⟨_, present _ (List.mem_singleton_self _), .whole rfl rfl⟩
  | selection =>
    obtain ⟨spans, named⟩ := Option.isSome_iff_exists.mp (mem_stays.mp stay).2.1
    refine ⟨_, present _ (List.mem_singleton_self _), .selection rfl named ?_ rfl⟩
    exact List.mem_map_of_mem (List.mem_filterMap.mpr ⟨id, stay, named⟩)
  | tags none => exact absurd stay (none ▸ List.not_mem_nil)
  | nothing none => exact absurd stay (none ▸ List.not_mem_nil)

theorem pointerText_split (session : Session) (item : ItemId) (stop : Nat) (declarator : List Char) : ∃ lead tail,
    session.pointerText item stop declarator = lead ++
      Text.stripStorage (session.program.text
        ⟨(session.program.item item).file, (session.program.item item).span.start, stop⟩) ++ tail := by
  unfold pointerText
  generalize Text.stripStorage _ = specifiers
  generalize ";".toList = close
  exact ⟨"static ".toList, " ".toList ++ declarator ++ close, by simp only [List.append_assoc]⟩

section Definitions

variable (laid : session.program.Laid .sound) {item : Nat} {members : List DeclId} {span : Span}
include laid

section Members

variable (known : item < session.program.items.size) (kind : (session.program.item item).kind = .decls members)
include known kind

theorem edit_place (ordered : session.program.LocalsAscend) {edit : Edit}
    (member : edit ∈ closure.edits session.program (session.stays closure item)) :
    (Text.IsBoundary (session.program.file (session.program.item item).file).text edit.span.start ∧
      Text.IsBoundary (session.program.file (session.program.item item).file).text edit.span.stop) ∧
    ∃ id ∈ members, (∃ spans ∈ (session.program.decl id).declarator, spans.full.start ≤ edit.span.start) ∨
      (session.program.decl id).kind.isFunction = true ∧ ∃ body ∈ (session.program.decl id).kind.body?,
        body.span.start ≤ edit.span.start ∧ edit.span.stop ≤ body.span.stop := by
  obtain ⟨id, stay, called⟩ := (Closure.mem_edits ordered).mp member
  obtain ⟨listed, declares, -⟩ := mem_stays.mp stay
  rw [membersOf_eq kind] at listed
  obtain ⟨inside, rfl, outer⟩ := (laid.mem_members known kind).mp listed
  obtain ⟨own, -, lies⟩ := laid.place inside
  -- Where the body lies, what it reaches lies.
  have placed : ∀ {body stmt : Stmt} {extent : Extent}, (session.program.decl id).kind.body? = some body →
      body.Lies (session.program.siteOf .sound (session.program.decl id).item) session.program extent →
      Relation.ReflTransGen session.program.StmtStep body stmt → ∃ place,
        Extent.Inside (session.program.file (session.program.item (session.program.decl id).item).file).text
          place extent ∧ stmt.span = place.inFile (session.program.item (session.program.decl id).item).file := by
    intro body stmt extent found bodyLies chain
    obtain ⟨place, within, span, -⟩ := (laid.reached inside found bodyLies chain).1 stmt stmt.self_mem_preorder
    exact ⟨place, within, span⟩
  obtain @⟨body, stmt, named, rename, found, chain, reference, pointer⟩ := called
  unfold Closure.editedBody? at found
  split at found
  · next shape =>
    subst found
    have hasBody : (session.program.decl id).kind.body? = some body := by rw [shape]; rfl
    obtain ⟨extent, -, bodySpan, bodyLies⟩ := (lies.body body hasBody).own
    obtain ⟨place, within, span⟩ := placed hasBody bodyLies chain
    rw [span]
    refine ⟨⟨within.opens, within.closes⟩, id, listed, .inr ⟨by rw [shape]; rfl, body, hasBody, ?_⟩⟩
    rw [bodySpan]
    exact ⟨within.start, within.stop⟩
  · next shape =>
    subst found
    obtain ⟨spans, declarator⟩ := Option.isSome_iff_exists.mp declares
    obtain ⟨full, bare, name, lie, inits⟩ := lies.declarator spans declarator
    have hasBody : (session.program.decl id).kind.body? = some body := by rw [shape]; rfl
    obtain ⟨place, within, span⟩ := placed hasBody (inits _ body shape) chain
    rw [span]
    refine ⟨⟨within.opens, within.closes⟩, id, listed, .inl ⟨spans, declarator, ?_⟩⟩
    rw [lie.parts]
    exact within.start
  · cases found

theorem declarator_cut {id : DeclId} (listed : id ∈ members) {spans : DeclaratorSpans}
    (named : (session.program.decl id).declarator = some spans) :
    Text.IsBoundary (session.program.file (session.program.item item).file).text spans.full.start := by
  obtain ⟨inside, rfl, -⟩ := (laid.mem_members known kind).mp listed
  obtain ⟨own, full, bare, name, -, -, inOwn, -, -, rfl⟩ := laid.declarator_place inside named
  exact inOwn.opens

theorem specifiers_cut :
    Text.IsBoundary (session.program.file (session.program.item item).file).text (session.specifiers item).stop := by
  rw [specifiers, membersOf_eq kind]
  cases named : session.firstDeclarator? members with
  | none => exact (laid.item_cut known).2
  | some spans =>
    obtain ⟨id, listed, declarator⟩ := List.mem_filterMap.mp (List.mem_of_mem_head? named)
    exact declarator_cut laid known kind (List.mem_filter.mp listed).1 declarator

theorem pointer_holds {id : DeclId} (listed : id ∈ members) {rename : Rename} {chunk : Chunk}
    (made : session.pointerChunk? item id rename = some chunk)
    (file : span.file = (session.program.item item).file)
    (within : span.isWithin (session.program.item item).span = true) (leads : session.program.Leads span item) :
    HoldsPart (session.program.text span) chunk.text := by
  obtain ⟨spans, before, after, named, -, -, -, -, rfl⟩ := pointerChunk_eq_some.mp made
  have front : span.isWithin ⟨(session.program.item item).file, (session.program.item item).span.start,
      spans.full.start⟩ = true := by
    refine Program.isWithin_iff.mpr ⟨file, (Program.isWithin_iff.mp within).2.1, ?_⟩
    exact leads id (membersOf_eq kind ▸ listed) spans named
  obtain ⟨lead, tail, shape⟩ := session.pointerText_split item spans.full.start
    (before ++ "(*".toList ++ rename.pointer.toList ++ ")".toList ++ after)
  obtain ⟨front, back, split⟩ :=
    Program.text_within front (laid.item_cut known).1 (declarator_cut laid known kind listed named)
  refine ⟨Text.stripStorage, by simp, lead, front, back, tail, ?_⟩
  rw [← split]
  exact shape

/-- A stretch in front of all declarators is not edited when the item is printed as a whole. -/
theorem whole_holds (ordered : session.program.LocalsAscend)
    (within : span.isWithin (session.program.item item).span = true) (leads : session.program.Leads span item)
    (clears : session.program.Clears span item) :
    ∃ front back, session.textOf closure (.whole item) = front ++ session.program.text span ++ back := by
  have file : (session.program.item item).span.file = (session.program.item item).file :=
    congrArg Span.file (laid.item_span known)
  obtain ⟨same, start, stop⟩ := Program.isWithin_iff.mp within
  obtain ⟨first, last⟩ := laid.item_cut known
  rw [← file] at first last
  have placed := fun edit (member : edit ∈ closure.edits session.program (session.stays closure item)) =>
    edit_place laid known kind ordered member
  rw [← file] at placed
  refine Edit.applyFrom_of_apart same start stop first last (fun edit member => ?_) fun edit member => ?_
  · exact (placed edit (List.mem_filter.mp member).1).1
  · obtain ⟨-, id, listed, place⟩ := placed edit (List.mem_filter.mp member).1
    rw [← membersOf_eq kind] at listed
    rcases place with ⟨spans, named, behind⟩ | ⟨function, body, hasBody, opens, closes⟩
    · exact .inr ((leads id listed spans named).trans behind)
    · rcases clears id listed function body hasBody with before | after
      · exact .inl (closes.trans before)
      · exact .inr (after.trans opens)

end Members

/-- The definition of a tag in the specifiers is printed whatever becomes of the declarators. -/
theorem Opens.exists_holds (ordered : session.program.LocalsAscend) (known : item < session.program.items.size)
    (opens : session.Opens kept item members) {tag : DeclId} (listed : tag ∈ members) (marked : tag ∈ closure.decls)
    (isTag : (session.program.decl tag).kind.isTag = true) (file : span.file = (session.program.item item).file)
    (within : span.isWithin (session.program.item item).span = true) (leads : session.program.Leads span item)
    (clears : session.program.Clears span item) :
    ∃ chunk ∈ session.chunks closure kept, chunk.origin.declItem? = some item ∧
      HoldsPart (session.program.text span) chunk.text := by
  obtain ⟨rest, shape, form⟩ :=
    @declChunks_form session closure (session.doneBefore closure kept item) item members opens.kind
  have present :=
    fun chunk (own : chunk ∈ (session.declChunks closure (session.doneBefore closure kept item) item members).1) =>
    opens.mem_chunks known own
  rw [shape] at present
  obtain ⟨front, back, split⟩ := Program.text_within (within_specifiers file within leads) (laid.item_cut known).1
    (specifiers_cut laid known opens.kind)
  cases form with
  | whole =>
    obtain ⟨front, back, split⟩ :=
      @whole_holds session closure laid item members span known opens.kind ordered within leads clears
    obtain ⟨member, holds⟩ := present _ (List.mem_append_right _ (List.mem_singleton_self _))
    exact ⟨_, member, holds, id, by simp, [], front, back, [], by simp [split]⟩
  | selection =>
    have opening : ∃ tail, session.textOf closure (.selection item) =
        session.program.text (session.specifiers item) ++ tail := ⟨_, List.append_assoc _ _ _⟩
    obtain ⟨tail, opening⟩ := opening
    obtain ⟨member, holds⟩ := present _ (List.mem_append_right _ (List.mem_singleton_self _))
    exact ⟨_, member, holds, id, by simp, [], front, back, tail, by simp [opening, split]⟩
  | tags =>
    obtain ⟨member, holds⟩ := present _ (List.mem_append_right _ (List.mem_singleton_self _))
    refine ⟨_, member, holds, Text.stripStorageAndTypedef, by simp, [], front, back, [';'], ?_⟩
    rw [← split]
    rfl
  | nothing none covered =>
    -- Without another chunk the item has a pointer.
    have pointers := covered.resolve_right fun free => by
      rw [membersOf_eq opens.kind] at free
      rw [free tag listed marked] at isTag
      cases isTag
    obtain ⟨chunk, own⟩ := List.exists_mem_of_ne_nil _ pointers
    obtain ⟨id, rename, declared, -, made⟩ := pointer_of_mem own
    obtain ⟨member, holds⟩ := present chunk (List.mem_append_left _ own)
    exact ⟨chunk, member, holds, pointer_holds laid known opens.kind (mem_marked.mp declared).1 made file within leads⟩

end Definitions

/-- The output is made of chunks. In expanded text, a marked function, variable or `typedef` at file scope that is not
behind a pointer is printed if and only if its item has an outermost declaration at file scope, and so is the definition
of a marked tag in front of the declarators. A marked declaration that takes up its whole item provides for that. -/
theorem printed_iff_shows (sound : session.IsSound) (found : session.extract requested = .ok extraction) :
    extraction.text = renderChunks (session.chunks extraction.closure extraction.kept) ∧
    (∀ id ∈ extraction.closure.decls, (session.program.decl id).context = none →
      ((session.program.decl id).kind.sort = .symbol ∨ (session.program.decl id).kind.sort = .typeName) →
      session.isDeclExpanded id = true → extraction.closure.renameFor? session.program id = none →
      ((∃ chunk ∈ session.chunks extraction.closure extraction.kept, session.Prints extraction.closure chunk id) ↔
        session.Shows extraction.closure (session.program.decl id).item)) ∧
    (∀ tag ∈ extraction.closure.decls, ∀ span, (session.program.decl tag).context = none →
      session.isDeclExpanded tag = true → session.program.Defines tag span →
      session.program.Leads span (session.program.decl tag).item →
      session.program.Clears span (session.program.decl tag).item →
      ((∃ chunk ∈ session.chunks extraction.closure extraction.kept,
          chunk.origin.declItem? = some (session.program.decl tag).item ∧
            HoldsPart (session.program.text span) chunk.text) ↔
        session.Shows extraction.closure (session.program.decl tag).item)) ∧
    ∀ id ∈ extraction.closure.decls, (session.program.decl id).context = none →
      ¬(session.program.decl id).kind.IsForward →
      (session.program.decl id).span = (session.program.item (session.program.decl id).item).span →
      session.Shows extraction.closure (session.program.decl id).item := by
  have laid := sound.laid
  refine ⟨(extract_kept found).2, fun id marked outer sort expanded plain => ⟨fun printed => ?_, fun shows => ?_⟩,
    fun tag marked span outer expanded defines leads clears => ⟨fun held => ?_, fun shows => ?_⟩,
    fun id marked outer full span => shows_of_span sound found marked outer full span⟩
  · obtain ⟨chunk, member, prints⟩ := printed
    cases prints with
    | whole origin => exact shows_of_mem sound found member (by rw [origin]; rfl)
    | selection origin => exact shows_of_mem sound found member (by rw [origin]; rfl)
  · have known := extract_lt sound found marked
    have itemKnown := (laid.holds known).1
    rw [isDeclExpanded_eq laid known] at expanded
    obtain ⟨members, opens⟩ := (opens_iff_shows sound found itemKnown expanded).mpr shows
    exact opens.exists_prints itemKnown (mem_stays_of_marked laid known marked outer sort plain)
  · obtain ⟨chunk, member, holds, -⟩ := held
    exact shows_of_mem sound found member holds
  · have known := extract_lt sound found marked
    have itemKnown := (laid.holds known).1
    rw [isDeclExpanded_eq laid known] at expanded
    obtain ⟨members, opens⟩ := (opens_iff_shows sound found itemKnown expanded).mpr shows
    have listed := (laid.mem_members itemKnown opens.kind).mpr ⟨known, rfl, outer⟩
    exact opens.exists_holds laid sound.isRead.consistent.locals itemKnown listed marked defines.complete.1 defines.file
      defines.within leads clears

set_option maxRecDepth 10000 in
/-- The variable `b` and the definition of its tag are printed. -/
theorem printed_sharedTag : ∃ extraction, sharedTag.extract ["f"] = .ok extraction ∧
    (∃ chunk ∈ sharedTag.chunks extraction.closure extraction.kept, sharedTag.Prints extraction.closure chunk 2) ∧
    ∃ chunk ∈ sharedTag.chunks extraction.closure extraction.kept, chunk.origin.declItem? = some 0 ∧
      HoldsPart (sharedTag.program.text ⟨0, 0, 19⟩) chunk.text := by
  let extraction : Extraction :=
    { closure :=
        { roots := [3], decls := [0, 1, 2, 3], macros := [], needsUndef := [], renames := [⟨"a", .var, 1⟩],
          passSizes := [4] }
      kept := [0, 3]
      text := ("static struct s \x7b int v; \x7d (*klp_a);\n\nstruct s \x7b int v; \x7d b;\n\n" ++
        "int f(void) \x7b return (*klp_a).v + b.v; \x7d\n").toList }
  have facts : sharedTag.extract ["f"] = .ok extraction ∧
      ((sharedTag.program.decl 2).context = none ∧ (sharedTag.program.decl 2).kind.sort = .symbol ∧
        sharedTag.isDeclExpanded 2 = true ∧ extraction.closure.renameFor? sharedTag.program 2 = none ∧
        (sharedTag.program.decl 2).item = 0 ∧ (sharedTag.program.decl 2).kind.isTag = false ∧
        (sharedTag.program.decl 2).span = (sharedTag.program.item 0).span) ∧
      (sharedTag.program.decl 0).context = none ∧ sharedTag.isDeclExpanded 0 = true ∧
        sharedTag.program.Defines 0 ⟨0, 0, 19⟩ ∧ (sharedTag.program.decl 0).item = 0 ∧
        sharedTag.program.Leads ⟨0, 0, 19⟩ 0 ∧ sharedTag.program.Clears ⟨0, 0, 19⟩ 0 := by
    decide +kernel
  have sound : sharedTag.IsSound := isSound_ofDocument _ (by decide +kernel)
  obtain ⟨found, ⟨outer, symbol, expanded, plain, place, notTag, span⟩, tagOuter, tagExpanded, defines, tagPlace, leads,
    clears⟩ := facts
  obtain ⟨-, printed, held, shown⟩ := printed_iff_shows sound found
  have shows : sharedTag.Shows extraction.closure 0 :=
    place ▸ shown 2 (by decide) outer (fun forward => absurd forward.1 (by simp [notTag])) (place ▸ span)
  refine ⟨extraction, found, (printed 2 (by decide) outer (.inl symbol) expanded plain).mpr (place ▸ shows), ?_⟩
  have condition := held 0 (by decide) _ tagOuter tagExpanded defines
  rw [tagPlace] at condition
  exact (condition leads clears).mpr shows

/-- A function whose result type is an enumeration with a constant from a block, in which a declaration stands. Its body
defines a tag in a `sizeof` and declares the variable `y` by that tag. -/
def passedOver (declared : Written) : Session :=
  ({} : Config).session (.ofDocument ⟨[], []⟩ ⟨[]⟩ "unit.c"
    (Written.document
      [("", .object "y"),
        ("\n", .group "function_definition"
          [("", .group "type.enum_specifier"
              [("", .token "'enum" "enum"), (" ", .token "name.type_identifier" "e"),
                (" ", .group "body.enumerator_list"
                  [("", .token "'\x7b" "\x7b"),
                    (" ", .group "enumerator"
                      [("", .token "name.identifier" "A"), (" ", .token "'=" "="),
                        (" ", .blockValue "value.parenthesized_expression" declared (.token "number_literal" "1"))] ""),
                    (" ", .token "'\x7d" "\x7d")] "")] ""),
            (" ", .functionHead "f"),
            (" ", .group "body.compound_statement"
              [("", .token "'\x7b" "\x7b"),
                (" ", .group "expression_statement"
                  [("", .group "sizeof_expression"
                      [("", .token "'sizeof" "sizeof"), ("", .token "'(" "("),
                        ("", .group "type.type_descriptor"
                          [("", .group "type.struct_specifier"
                            [("", .token "'struct" "struct"), (" ", .token "name.type_identifier" "q"),
                              (" ", .group "body.field_declaration_list"
                                [("", .token "'\x7b" "\x7b"),
                                  (" ", .group "field_declaration"
                                    [("", .token "type.primitive_type" "int"),
                                      (" ", .token "declarator.field_identifier" "a"), ("", .token "';" ";")] ""),
                                  (" ", .token "'\x7d" "\x7d")] "")] "")] ""),
                        ("", .token "')" ")")] ""),
                    ("", .token "';" ";")] ""),
                (" ", .group "declaration"
                  [("", .group "storage_class_specifier" [("", .token "'extern" "extern")] ""),
                    (" ", .group "type.struct_specifier"
                      [("", .token "'struct" "struct"), (" ", .token "name.type_identifier" "q")] ""),
                    (" ", .token "declarator.identifier" "y"), ("", .token "';" ";")] ""),
                (" ", .group "return_statement"
                  [("", .token "'return" "return"), (" ", .token "number_literal" "0"), ("", .token "';" ";")] ""),
                (" ", .token "'\x7d" "\x7d")] "")] ""),
        ("\n", .function "g" (.reference "y"))]))

set_option maxRecDepth 10000 in
/-- The tag of the body takes up the whole item, so no declaration of the item at file scope is outermost, and the
declaration of `y` in the block is not printed. -/
theorem passedOver_lost : ∃ extraction, (passedOver (.storedObject "extern" "y")).extract ["g"] = .ok extraction ∧
    2 ∈ extraction.closure.decls ∧ ((passedOver (.storedObject "extern" "y")).program.decl 2).context = none ∧
    ((passedOver (.storedObject "extern" "y")).program.decl 2).kind.isVar = true ∧
    ((passedOver (.storedObject "extern" "y")).program.decl 2).item = 1 ∧
    (passedOver (.storedObject "extern" "y")).isDeclExpanded 2 = true ∧
    extraction.closure.renameFor? (passedOver (.storedObject "extern" "y")).program 2 = none ∧
    (∀ chunk ∈ (passedOver (.storedObject "extern" "y")).chunks extraction.closure extraction.kept,
      chunk.origin.item ≠ 1) ∧
    extraction.text = "int y;\n\nint g(void) \x7b return y; \x7d\n".toList := by
  let extraction : Extraction :=
    { closure :=
        { roots := [7], decls := [0, 2, 5, 6, 7], macros := [], needsUndef := [], renames := [], passSizes := [5] }
      kept := [0, 5, 7]
      text := "int y;\n\nint g(void) \x7b return y; \x7d\n".toList }
  refine ⟨extraction, ?_⟩
  decide +kernel

end Session

end Excerpt
