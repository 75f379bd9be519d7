import Excerpt.Proofs.Draft.Units
import Excerpt.Proofs.Emission.Specifiers

namespace Excerpt

namespace Program

def membersOf (program : Program) (item : ItemId) : List DeclId :=
  match (program.item item).kind with
  | .decls members => members
  | _ => []

/-- The span holds the definition of a tag: it starts where the declaration of the tag does and lies in its item. -/
structure Defines (program : Program) (tag : Nat) (span : Span) : Prop where
  known : tag < program.decls.size
  complete : (program.decl tag).kind.isTag = true ∧ (program.decl tag).kind.isDefinition = true
  file : span.file = (program.item (program.decl tag).item).file
  start : span.start = (program.decl tag).pos.offset
  filled : span.start < span.stop
  within : span.isWithin (program.item (program.decl tag).item).span = true

/-- The span ends before every declarator that an item lists. -/
def Leads (program : Program) (span : Span) (item : ItemId) : Prop :=
  ∀ id ∈ program.membersOf item, ∀ spans ∈ (program.decl id).declarator, span.stop ≤ spans.full.start

instance (program : Program) (tag : Nat) (span : Span) : Decidable (program.Defines tag span) :=
  decidable_of_iff
    (tag < program.decls.size ∧
      ((program.decl tag).kind.isTag = true ∧ (program.decl tag).kind.isDefinition = true) ∧
      span.file = (program.item (program.decl tag).item).file ∧ span.start = (program.decl tag).pos.offset ∧
      span.start < span.stop ∧ span.isWithin (program.item (program.decl tag).item).span = true)
    ⟨fun facts => ⟨facts.1, facts.2.1, facts.2.2.1, facts.2.2.2.1, facts.2.2.2.2.1, facts.2.2.2.2.2⟩,
      fun facts => ⟨facts.known, facts.complete, facts.file, facts.start, facts.filled, facts.within⟩⟩

instance (program : Program) (span : Span) (item : ItemId) : Decidable (program.Leads span item) :=
  inferInstanceAs (Decidable (∀ id ∈ program.membersOf item, ∀ spans ∈ (program.decl id).declarator, _))

end Program

namespace Session

def stays (session : Session) (closure : Closure) (item : ItemId) : List DeclId :=
  (session.marked closure (session.program.membersOf item)).filter fun id =>
    (closure.renameFor? session.program id).isNone

/-- The specifiers of an item: what stands before its first declarator, or the whole item. -/
def specifiers (session : Session) (item : ItemId) : Span :=
  ⟨(session.program.item item).file, (session.program.item item).span.start,
    ((session.firstDeclarator? (session.program.membersOf item)).map (·.full.start)).getD
      (session.program.item item).span.stop⟩

def sources (session : Session) (closure : Closure) : ChunkOrigin → List Span
  | .undef _ _ => []
  | .inclusion _ item => [(session.program.item item).span]
  | .directive _ item => [(session.program.item item).span]
  | .pointer id item =>
    match (session.program.decl id).declarator with
    | some spans =>
      [⟨(session.program.item item).file, (session.program.item item).span.start, spans.full.start⟩, spans.bare]
    | none => []
  | .whole item => [(session.program.item item).span]
  | .selection item =>
    session.specifiers item ::
      ((session.stays closure item).filterMap fun id => (session.program.decl id).declarator).map (·.full)
  | .tags item => [session.specifiers item]

def textOf (session : Session) (closure : Closure) : ChunkOrigin → List Char
  | .undef name _ => ("#undef " ++ name).toList
  | .inclusion _ item => session.program.text (session.program.item item).span
  | .directive _ item => session.program.text (session.program.item item).span
  | .pointer id item =>
    match (session.program.decl id).declarator, closure.renameFor? session.program id with
    | some spans, some rename =>
      ((session.program.pointerDeclarator? spans rename).map (session.pointerText item spans.full.start)).getD []
    | _, _ => []
  | .whole item =>
    Edit.applyAll session.program (session.program.item item).span
      (closure.edits session.program (session.stays closure item))
  | .selection item =>
    session.program.text (session.specifiers item) ++
      List.intercalate [',', ' ']
        (((session.stays closure item).filterMap fun id => (session.program.decl id).declarator).map fun spans =>
          Edit.applyAll session.program spans.full (closure.edits session.program (session.stays closure item))) ++
            [';']
  | .tags item => Text.stripStorageAndTypedef (session.program.text (session.specifiers item)) ++ [';']

def takes (session : Session) (closure : Closure) (span : Span) (chunk : Chunk) : Bool :=
  (session.sources closure chunk.origin).any span.isWithin

def pointersAt (session : Session) (closure : Closure) (kept : IdSet) (item : ItemId) : List Chunk :=
  (session.chunks closure kept).filter fun chunk =>
    chunk.origin.item == item && (chunk.origin.chain? session.program).isSome

inductive Rest (session : Session) (closure : Closure) (item : ItemId) (pointers : List Chunk) : List Chunk → Prop
  | whole (all : (∃ id ∈ session.stays closure item, (session.program.decl id).kind.hasBody = true) ∨
      (session.stays closure item).length = (session.declarators (session.program.membersOf item)).length) :
      Rest session closure item pointers [⟨.whole item, session.textOf closure (.whole item)⟩]
  | selection (some : session.stays closure item ≠ []) :
      Rest session closure item pointers [⟨.selection item, session.textOf closure (.selection item)⟩]
  | tags (none : session.stays closure item = []) (bare : pointers = [])
      (tag : ∃ id ∈ session.program.membersOf item, id ∈ closure.decls ∧ (session.program.decl id).kind.isTag = true) :
      Rest session closure item pointers [⟨.tags item, session.textOf closure (.tags item)⟩]
  | nothing (none : session.stays closure item = [])
      (covered : pointers ≠ [] ∨ ∀ id ∈ session.program.membersOf item, id ∈ closure.decls →
        (session.program.decl id).kind.isTag = false) :
      Rest session closure item pointers []

variable {session : Session} {closure : Closure} {kept : IdSet} {done : List ChainId} {item : ItemId} {chunk : Chunk}
  {members : List DeclId} {pointers rest : List Chunk}

theorem membersOf_eq (kind : (session.program.item item).kind = .decls members) :
    session.program.membersOf item = members := by
  rw [Program.membersOf, kind]

theorem mem_stays {id : DeclId} : id ∈ session.stays closure item ↔ id ∈ session.program.membersOf item ∧
    (session.program.decl id).declarator.isSome = true ∧ id ∈ closure.decls ∧
      closure.renameFor? session.program id = none := by
  rw [stays, List.mem_filter, mem_marked, Option.isNone_iff_eq_none]
  simp only [and_assoc]

/-- Of an item that is looked at, one chunk at most is not a pointer. -/
theorem declChunks_form (kind : (session.program.item item).kind = .decls members) : ∃ rest,
    (session.declChunks closure done item members).1 =
      (session.splitParts closure item done (session.marked closure members)).pointers ++ rest ∧
    session.Rest closure item (session.splitParts closure item done (session.marked closure members)).pointers
      rest := by
  have listed := membersOf_eq kind
  have printed : (session.splitParts closure item done (session.marked closure members)).printed =
      session.stays closure item := by
    rw [splitParts_printed, stays, listed]
  refine ⟨(session.printedChunk? closure item members
    (session.splitParts closure item done (session.marked closure members))).toList, rfl, ?_⟩
  generalize session.splitParts closure item done (session.marked closure members) = parts at printed
  unfold printedChunk?
  dsimp only
  rw [printed]
  have named : (((session.declarators members).filterMap fun id => (session.program.decl id).declarator).head?.map
      (·.full.start)).getD (session.program.item item).span.stop = (session.specifiers item).stop := by
    rw [specifiers, firstDeclarator?, listed]
  split_ifs with all empty bare
  · refine .whole ?_
    rw [listed]
    simpa using all
  · obtain ⟨pointers, tag⟩ := Bool.and_eq_true_iff.mp bare
    rw [named]
    refine .tags (List.isEmpty_iff.mp empty) (List.isEmpty_iff.mp pointers) ?_
    rw [listed]
    simpa using tag
  · refine .nothing (List.isEmpty_iff.mp empty) ?_
    rw [listed]
    by_cases pointers : parts.pointers = []
    · refine .inr fun id member marked => ?_
      by_contra tag
      refine bare (Bool.and_eq_true_iff.mpr ⟨List.isEmpty_iff.mpr pointers, List.any_eq_true.mpr ⟨id, member, ?_⟩⟩)
      simpa [marked] using tag
    · exact .inl pointers
  · rw [named]
    exact .selection (by simpa using empty)

theorem pointerChunk_text {id : DeclId} {rename : Rename} (found : closure.renameFor? session.program id = some rename)
    (made : session.pointerChunk? item id rename = some chunk) : chunk.text = session.textOf closure chunk.origin := by
  obtain ⟨spans, declarator, named, replaced, rfl⟩ := exists_pointerText made
  simp only [textOf, named, found, replaced, Option.map_some, Option.getD_some]

theorem Rest.text (form : session.Rest closure item pointers rest) :
    ∀ chunk ∈ rest, chunk.text = session.textOf closure chunk.origin := by
  intro chunk member
  cases form with
  | nothing => cases member
  | whole => rw [List.mem_singleton.mp member]
  | selection => rw [List.mem_singleton.mp member]
  | tags => rw [List.mem_singleton.mp member]

theorem text_eq_textOf (member : chunk ∈ session.chunks closure kept) (holds : chunk.origin.declItem? = some item) :
    chunk.text = session.textOf closure chunk.origin := by
  obtain ⟨-, members, opens, own⟩ := opens_of_mem member holds
  obtain ⟨rest, shape, form⟩ :=
    @declChunks_form session closure (session.doneBefore closure kept item) item members opens.kind
  rw [shape, List.mem_append] at own
  rcases own with pointer | other
  · obtain ⟨id, rename, -, found, made⟩ := pointer_of_mem pointer
    exact pointerChunk_text found made
  · exact form.text chunk other

section Within

variable (laid : session.program.Laid .sound)
include laid

section Members

variable {item : Nat} (known : item < session.program.items.size)
  (kind : (session.program.item item).kind = .decls members)
include known kind

theorem specifiers_within :
    (session.specifiers item).isWithin (session.program.item item).span = true := by
  have file : (session.program.item item).span.file = (session.program.item item).file :=
    congrArg Span.file (laid.item_span known)
  refine Program.isWithin_iff.mpr ⟨file.symm, Nat.le_refl _, ?_⟩
  rw [specifiers, membersOf_eq kind]
  cases first : session.firstDeclarator? members with
  | none => exact Nat.le_refl _
  | some spans =>
    obtain ⟨id, listed, named⟩ := List.mem_filterMap.mp (List.mem_of_mem_head? first)
    obtain ⟨inside, rfl, -⟩ := (laid.mem_members known kind).mp (List.mem_filter.mp listed).1
    obtain ⟨within, -, proper⟩ := laid.declarator_within inside named
    exact proper.trans (Program.isWithin_iff.mp within).2.2

theorem declarator_within_item {id : DeclId} (listed : id ∈ members) {spans : DeclaratorSpans}
    (named : (session.program.decl id).declarator = some spans) :
    spans.full.isWithin (session.program.item item).span = true ∧
      spans.bare.isWithin (session.program.item item).span = true ∧ spans.full.start ≤ spans.full.stop := by
  obtain ⟨inside, rfl, -⟩ := (laid.mem_members known kind).mp listed
  exact laid.declarator_within inside named

end Members

theorem sources_within (member : chunk ∈ session.chunks closure kept) :
    ∀ source ∈ session.sources closure chunk.origin,
      source.isWithin (session.program.item chunk.origin.item).span = true := by
  have whole : ∀ span : Span, span.isWithin span = true :=
    fun span => Program.isWithin_iff.mpr ⟨rfl, Nat.le_refl _, Nat.le_refl _⟩
  intro source taken
  cases origin : chunk.origin with
  | undef => rw [origin] at taken; cases taken
  | inclusion | directive | whole =>
    rw [origin] at taken
    rw [List.mem_singleton.mp taken]
    exact whole _
  | pointer id item =>
    have holds : chunk.origin.declItem? = some item := by rw [origin]; rfl
    obtain ⟨known, -⟩ := opens_of_mem member holds
    obtain ⟨members, rename, kind, marked, -, -⟩ := pointer_of_origin member origin
    obtain ⟨listed, declares, -⟩ := mem_marked.mp marked
    obtain ⟨spans, named⟩ := Option.isSome_iff_exists.mp declares
    obtain ⟨inFull, inBare, proper⟩ := declarator_within_item laid known kind listed named
    simp only [sources, origin, named, List.mem_cons, List.not_mem_nil, or_false] at taken
    rcases taken with rfl | rfl
    · have file : (session.program.item item).span.file = (session.program.item item).file :=
        congrArg Span.file (laid.item_span known)
      exact Program.isWithin_iff.mpr ⟨file.symm, Nat.le_refl _, proper.trans (Program.isWithin_iff.mp inFull).2.2⟩
    · exact inBare
  | selection item =>
    have holds : chunk.origin.declItem? = some item := by rw [origin]; rfl
    obtain ⟨known, members, opens, -⟩ := opens_of_mem member holds
    rw [origin] at taken
    rcases List.mem_cons.mp taken with rfl | later
    · exact specifiers_within laid known opens.kind
    · obtain ⟨spans, printed, rfl⟩ := List.mem_map.mp later
      obtain ⟨id, stay, named⟩ := List.mem_filterMap.mp printed
      have listed := (mem_stays.mp stay).1
      rw [membersOf_eq opens.kind] at listed
      exact (declarator_within_item laid known opens.kind listed named).1
  | tags item =>
    have holds : chunk.origin.declItem? = some item := by rw [origin]; rfl
    obtain ⟨known, members, opens, -⟩ := opens_of_mem member holds
    rw [origin] at taken
    rw [List.mem_singleton.mp taken]
    exact specifiers_within laid known opens.kind

theorem item_of_takes {item : Nat} {span : Span} (known : item < session.program.items.size)
    (filled : span.start < span.stop) (inside : span.isWithin (session.program.item item).span = true)
    (member : chunk ∈ session.chunks closure kept) (taken : session.takes closure span chunk = true) :
    chunk.origin.item = item := by
  obtain ⟨source, listed, within⟩ := List.any_eq_true.mp taken
  obtain ⟨sameFile, start, stop⟩ := Program.isWithin_iff.mp within
  obtain ⟨file, first, last⟩ := Program.isWithin_iff.mp (sources_within laid member source listed)
  refine laid.item_unique filled (List.mem_range.mp (item_of_mem_chunksFrom member)) known ?_ inside
  exact Program.isWithin_iff.mpr ⟨sameFile.trans file, first.trans start, stop.trans last⟩

end Within

theorem Rest.length_le (form : session.Rest closure item pointers rest) : rest.length ≤ 1 := by
  cases form <;> simp

theorem Rest.chain (form : session.Rest closure item pointers rest) :
    ∀ chunk ∈ rest, chunk.origin.chain? session.program = none := by
  intro chunk member
  cases form with
  | nothing => cases member
  | whole => rw [List.mem_singleton.mp member]; rfl
  | selection => rw [List.mem_singleton.mp member]; rfl
  | tags => rw [List.mem_singleton.mp member]; rfl

/-- An item prints no more than one chunk when it has one pointer at most and, with a pointer, nothing that stays. -/
theorem Rest.alone_iff {members : List DeclId}
    (kind : (session.program.item item).kind = .decls members)
    (form : session.Rest closure item pointers rest)
    (origin : pointers ≠ [] → session.marked closure members ≠ []) :
    pointers.length + rest.length ≤ 1 ↔ pointers.length ≤ 1 ∧ (pointers ≠ [] → session.stays closure item = []) := by
  have one : pointers.length + 1 ≤ 1 ↔ pointers = [] := by
    rw [← List.length_eq_zero_iff]
    omega
  have none : pointers = [] → pointers.length ≤ 1 ∧ (pointers ≠ [] → session.stays closure item = []) := by
    rintro rfl
    exact ⟨by simp, fun filled => absurd rfl filled⟩
  cases form with
  | whole all =>
    rw [List.length_singleton, one]
    refine ⟨none, fun facts => ?_⟩
    by_contra filled
    -- An item whose declarators all stay has no declarator at all when none stays.
    have empty := facts.2 filled
    rw [empty, membersOf_eq kind] at all
    rcases all with ⟨id, stay, -⟩ | same
    · cases stay
    · have bare : session.declarators members = [] := List.eq_nil_of_length_eq_zero same.symm
      exact origin filled (by rw [marked, bare]; rfl)
  | selection some =>
    rw [List.length_singleton, one]
    refine ⟨none, fun facts => ?_⟩
    by_contra filled
    exact some (facts.2 filled)
  | tags empty bare =>
    rw [List.length_singleton, one]
    exact ⟨none, fun _ => bare⟩
  | nothing empty covered => exact ⟨fun bound => ⟨bound, fun _ => empty⟩, fun facts => facts.1⟩

/-- Removals first, then pointers, then one more chunk at most. -/
theorem itemChunks_form (session : Session) (closure : Closure) (kept : IdSet) (done : List ChainId) (item : ItemId) :
    ∃ pointers rest, (session.itemChunks closure kept done item).1 =
        session.undefChunks closure item ++ (pointers ++ rest) ∧
      (∀ chunk ∈ pointers, ∃ id, chunk.origin = .pointer id item) ∧ rest.length ≤ 1 ∧
      (∀ chunk ∈ rest, chunk.origin.chain? session.program = none) ∧
      ((∃ members, session.Opens kept item members ∧ session.Rest closure item pointers rest ∧
        (pointers ≠ [] → session.marked closure members ≠ [])) ∨
      (∀ members, ¬session.Opens kept item members) ∧ pointers = []) := by
  rcases session.itemChunks_cases closure kept done item with ⟨members, opens, shape⟩ | ⟨closed, -, plain⟩
  · obtain ⟨rest, split, form⟩ := @declChunks_form session closure done item members opens.kind
    refine ⟨_, rest, by rw [shape, split], pointers_origin _, form.length_le, form.chain,
      .inl ⟨members, opens, form, ?_⟩⟩
    intro filled
    obtain ⟨chunk, member⟩ := List.exists_mem_of_ne_nil _ filled
    obtain ⟨id, rename, listed, -⟩ := pointer_of_mem member
    exact List.ne_nil_of_mem listed
  · obtain ⟨tail, shape, form⟩ := session.itemChunks_eq closure kept done item
    have silent : ∀ chunk ∈ tail, chunk.origin.declItem? = none := by
      intro chunk member
      exact plain chunk (by rw [shape]; exact List.mem_append_right _ member)
    refine ⟨[], tail, by rw [shape, List.nil_append], fun chunk member => absurd member List.not_mem_nil, ?_, ?_,
      .inr ⟨closed, rfl⟩⟩
    · cases form with
      | decls expanded kind origins =>
        cases tail with
        | nil => simp
        | cons first rest =>
          have holds := origins first List.mem_cons_self
          rw [silent first List.mem_cons_self] at holds
          cases holds
      | directive printed => simp
      | inclusion printed => simp
      | empty printed => simp
    · intro chunk member
      exact chain_of_not_decl (silent chunk member)

theorem filter_chunks_of_item {item : Nat} (known : item < session.program.items.size) (keep : Chunk → Bool) :
    ((session.chunks closure kept).filter fun chunk => chunk.origin.item == item && keep chunk) =
      (session.itemChunks closure kept (session.doneBefore closure kept item) item).1.filter keep := by
  rw [filter_chunks_at known]
  · apply List.filter_congr
    intro chunk member
    simp [item_of_mem_itemChunks member]
  · intro chunk differs
    simp [differs]

theorem filter_chunks_beyond {item : Nat} (beyond : session.program.items.size ≤ item) (keep : Chunk → Bool) :
    ((session.chunks closure kept).filter fun chunk => chunk.origin.item == item && keep chunk) = [] := by
  rw [List.filter_eq_nil_iff]
  intro chunk member
  have known : chunk.origin.item < session.program.items.size := List.mem_range.mp (item_of_mem_chunksFrom member)
  simp [Nat.ne_of_lt (Nat.lt_of_lt_of_le known beyond)]

theorem takes_undef {span : Span} : (session.undefChunks closure item).filter (session.takes closure span) = [] :=
  filter_undefChunks fun _ => by simp [takes, sources]

theorem pointersAt_eq {item : Nat} (known : item < session.program.items.size)
    (shape : (session.itemChunks closure kept (session.doneBefore closure kept item) item).1 =
      session.undefChunks closure item ++ (pointers ++ rest))
    (origins : ∀ chunk ∈ pointers, ∃ id, chunk.origin = .pointer id item)
    (plain : ∀ chunk ∈ rest, chunk.origin.chain? session.program = none) :
    session.pointersAt closure kept item = pointers := by
  rw [pointersAt, filter_chunks_of_item known, shape, List.filter_append, List.filter_append]
  have own : (pointers.filter fun chunk => (chunk.origin.chain? session.program).isSome) = pointers := by
    rw [List.filter_eq_self]
    intro chunk member
    obtain ⟨id, origin⟩ := origins chunk member
    simp [origin, ChunkOrigin.chain?]
  have others : (rest.filter fun chunk => (chunk.origin.chain? session.program).isSome) = [] := by
    rw [List.filter_eq_nil_iff]
    intro chunk member
    simp [plain chunk member]
  rw [filter_undefChunks fun _ => rfl, own, others, List.nil_append, List.append_nil]

theorem within_specifiers {span : Span} (file : span.file = (session.program.item item).file)
    (within : span.isWithin (session.program.item item).span = true) (leads : session.program.Leads span item) :
    span.isWithin (session.specifiers item) = true := by
  obtain ⟨-, start, stop⟩ := Program.isWithin_iff.mp within
  refine Program.isWithin_iff.mpr ⟨file, start, ?_⟩
  rw [specifiers]
  cases first : session.firstDeclarator? (session.program.membersOf item) with
  | none => exact stop
  | some spans =>
    obtain ⟨id, own, named⟩ := List.mem_filterMap.mp (List.mem_of_mem_head? first)
    exact leads id (List.mem_filter.mp own).1 spans named

/-- Every chunk of an item takes over the specifiers, so a stretch in front of all declarators is in each of them. -/
theorem takes_of_leads {span : Span} (file : span.file = (session.program.item item).file)
    (within : span.isWithin (session.program.item item).span = true) (leads : session.program.Leads span item)
    (member : chunk ∈ session.chunks closure kept) (holds : chunk.origin.declItem? = some item) :
    session.takes closure span chunk = true := by
  have start := (Program.isWithin_iff.mp within).2.1
  have front := within_specifiers file within leads
  unfold takes
  cases origin : chunk.origin with
  | undef | inclusion | directive => rw [origin] at holds; cases holds
  | pointer id place =>
    rw [origin] at holds
    cases holds
    obtain ⟨others, rename, kind, marked, -, -⟩ := pointer_of_origin member origin
    obtain ⟨own, declares, -⟩ := mem_marked.mp marked
    rw [← membersOf_eq kind] at own
    obtain ⟨spans, named⟩ := Option.isSome_iff_exists.mp declares
    have before : span.isWithin ⟨(session.program.item item).file, (session.program.item item).span.start,
        spans.full.start⟩ = true :=
      Program.isWithin_iff.mpr ⟨file, start, leads id own spans named⟩
    simp [sources, named, before]
  | whole place =>
    rw [origin] at holds
    cases holds
    simp [sources, within]
  | selection place =>
    rw [origin] at holds
    cases holds
    simp [sources, front]
  | tags place =>
    rw [origin] at holds
    cases holds
    simp [sources, front]

/-- Of the chunks of its item, one at most that is not a pointer takes the definition of a tag over. When the
definition stands before the declarators, it is taken over once at most if and only if the item prints one pointer at
most, and next to a pointer no declarator as it is. Chunks of other items do not take it over when the trees are
tidy. -/
theorem definition_taken_once_iff (closure : Closure) (kept : IdSet) {tag : Nat} {span : Span}
    (defines : session.program.Defines tag span) :
    (session.IsSound → ∀ chunk ∈ session.chunks closure kept, session.takes closure span chunk = true →
      chunk.origin.item = (session.program.decl tag).item) ∧
    ((session.chunks closure kept).filter fun chunk =>
      chunk.origin.item == (session.program.decl tag).item &&
        (session.takes closure span chunk && (chunk.origin.chain? session.program).isNone)).length ≤ 1 ∧
    (session.program.Leads span (session.program.decl tag).item →
      (((session.chunks closure kept).filter fun chunk =>
          chunk.origin.item == (session.program.decl tag).item && session.takes closure span chunk).length ≤ 1 ↔
        (session.pointersAt closure kept (session.program.decl tag).item).length ≤ 1 ∧
          (session.pointersAt closure kept (session.program.decl tag).item ≠ [] →
            session.stays closure (session.program.decl tag).item = []))) := by
  refine ⟨fun sound chunk =>
    item_of_takes sound.laid (sound.laid.holds defines.known).1 defines.filled defines.within, ?_⟩
  have file := defines.file
  have within := defines.within
  generalize (session.program.decl tag).item = item at file within
  by_cases known : item < session.program.items.size
  · obtain ⟨pointers, rest, shape, origins, bound, plain, form⟩ := session.itemChunks_form closure kept
      (session.doneBefore closure kept item) item
    constructor
    · rw [filter_chunks_of_item known, shape, List.filter_append, List.filter_append]
      have removals : ((session.undefChunks closure item).filter fun chunk =>
          session.takes closure span chunk && (chunk.origin.chain? session.program).isNone) = [] := by
        rw [← List.filter_filter, List.filter_comm, takes_undef, List.filter_nil]
      have free : (pointers.filter fun chunk =>
          session.takes closure span chunk && (chunk.origin.chain? session.program).isNone) = [] := by
        rw [List.filter_eq_nil_iff]
        intro chunk member
        obtain ⟨id, origin⟩ := origins chunk member
        simp [origin, ChunkOrigin.chain?]
      rw [removals, free, List.nil_append, List.nil_append]
      exact (List.length_filter_le _ _).trans bound
    · intro leads
      rw [filter_chunks_of_item known, shape, List.filter_append, takes_undef, List.nil_append,
        pointersAt_eq known shape origins plain]
      rcases form with ⟨members, opens, form, marked⟩ | ⟨-, rfl⟩
      · have printed : (session.chunks closure kept).filter (·.origin.declItem? == some item) = pointers ++ rest := by
          rw [opens.itemChunks_eq] at shape
          rw [opens.filter_chunks known]
          exact List.append_cancel_left shape
        have all : (pointers ++ rest).filter (session.takes closure span) = pointers ++ rest := by
          rw [List.filter_eq_self]
          intro chunk member
          rw [← printed] at member
          obtain ⟨present, holds⟩ := List.mem_filter.mp member
          exact takes_of_leads file within leads present (beq_iff_eq.mp holds)
        rw [all, List.length_append]
        exact form.alone_iff opens.kind marked
      · rw [List.nil_append]
        refine ⟨fun _ => ⟨by simp, fun filled => absurd rfl filled⟩, fun _ => ?_⟩
        exact (List.length_filter_le _ _).trans bound
  · have beyond := Nat.not_lt.mp known
    rw [pointersAt, filter_chunks_beyond beyond, filter_chunks_beyond beyond, filter_chunks_beyond beyond]
    simp

/-- Two variables of a tag that is defined with them, and a function that uses both. The first variable becomes a
pointer. -/
def sharedTag : Session :=
  ({ exportSymbols := ["a"] } : Config).session (.ofDocument ⟨[], []⟩ ⟨[]⟩ "unit.c"
    (Written.document
      [("", .group "declaration"
          [("", .group "type.struct_specifier"
              [("", .token "'struct" "struct"), (" ", .token "name.type_identifier" "s"),
                (" ", .group "body.field_declaration_list"
                  [("", .token "'\x7b" "\x7b"),
                    (" ", .group "field_declaration"
                      [("", .token "type.primitive_type" "int"), (" ", .token "declarator.field_identifier" "v"),
                        ("", .token "';" ";")] ""),
                    (" ", .token "'\x7d" "\x7d")] "")] ""),
            (" ", .token "declarator.identifier" "a"), ("", .token "'," ","), (" ", .token "declarator.identifier" "b"),
            ("", .token "';" ";")] ""),
        ("\n", .function "f" (.group "binary_expression"
          [("", .member "left.field_expression" "a" "v"), (" ", .token "operator.'+" "+"),
            (" ", .member "right.field_expression" "b" "v")] ""))]))

set_option maxRecDepth 10000 in
/-- The pointer for `a` and the declaration of `b` both take the definition over. -/
theorem definition_taken_sharedTag : ∃ extraction, sharedTag.extract ["f"] = .ok extraction ∧
    sharedTag.program.Defines 0 ⟨0, 0, 19⟩ ∧ sharedTag.program.Leads ⟨0, 0, 19⟩ 0 ∧
    ¬((sharedTag.chunks extraction.closure extraction.kept).filter fun chunk =>
      chunk.origin.item == 0 && sharedTag.takes extraction.closure ⟨0, 0, 19⟩ chunk).length ≤ 1 := by
  let extraction : Extraction :=
    { closure :=
        { roots := [3], decls := [0, 1, 2, 3], macros := [], needsUndef := [], renames := [⟨"a", .var, 1⟩],
          passSizes := [4] }
      kept := [0, 3]
      text := ("static struct s \x7b int v; \x7d (*klp_a);\n\nstruct s \x7b int v; \x7d b;\n\n" ++
        "int f(void) \x7b return (*klp_a).v + b.v; \x7d\n").toList }
  have facts : sharedTag.extract ["f"] = .ok extraction ∧ sharedTag.program.Defines 0 ⟨0, 0, 19⟩ ∧
      sharedTag.program.Leads ⟨0, 0, 19⟩ 0 ∧ (sharedTag.program.decl 0).item = 0 ∧
      sharedTag.pointersAt extraction.closure extraction.kept 0 ≠ [] ∧ sharedTag.stays extraction.closure 0 ≠ [] := by
    decide +kernel
  obtain ⟨found, defines, leads, place, pointers, stay⟩ := facts
  refine ⟨extraction, found, defines, leads, fun once => ?_⟩
  have condition := (definition_taken_once_iff extraction.closure extraction.kept defines).2.2
  rw [place] at condition
  exact stay (((condition leads).mp once).2 pointers)

set_option maxRecDepth 10000 in
/-- The definition stands once in the source and twice in the output. -/
theorem sharedTag_defined_twice : ∃ extraction, sharedTag.extract ["f"] = .ok extraction ∧
    (sharedTag.program.file 0).text =
      ("struct s \x7b int v; \x7d a, b;\nint f(void) \x7b return a.v + b.v; \x7d\n").toList ∧
    extraction.text = ("static struct s \x7b int v; \x7d (*klp_a);\n\nstruct s \x7b int v; \x7d b;\n\n" ++
      "int f(void) \x7b return (*klp_a).v + b.v; \x7d\n").toList := by
  let extraction : Extraction :=
    { closure :=
        { roots := [3], decls := [0, 1, 2, 3], macros := [], needsUndef := [], renames := [⟨"a", .var, 1⟩],
          passSizes := [4] }
      kept := [0, 3]
      text := ("static struct s \x7b int v; \x7d (*klp_a);\n\nstruct s \x7b int v; \x7d b;\n\n" ++
        "int f(void) \x7b return (*klp_a).v + b.v; \x7d\n").toList }
  have facts : sharedTag.extract ["f"] = .ok extraction ∧ (sharedTag.program.file 0).text =
      ("struct s \x7b int v; \x7d a, b;\nint f(void) \x7b return a.v + b.v; \x7d\n").toList := by
    decide +kernel
  exact ⟨extraction, facts.1, facts.2, rfl⟩

end Session

end Excerpt
