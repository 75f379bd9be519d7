import Excerpt.Proofs.Emission.Presence

/-!
Each symbol behind a pointer has its pointer in front of all its uses.
-/

namespace Excerpt

theorem Rename.symbol_eq_of_useText {first second : Rename} (same : first.useText.toList = second.useText.toList) :
    first.symbol = second.symbol := by
  obtain ⟨symbol, kind, chain⟩ := first
  obtain ⟨other, otherKind, otherChain⟩ := second
  apply String.toList_injective
  cases kind <;> cases otherKind <;> simp [Rename.useText, Rename.pointer] at same
  · exact same
  · exact same

namespace Session

/-- The chunk holds a use of the symbol that was replaced by its pointer. -/
def Rewrites (session : Session) (closure : Closure) (rename : Rename) (chunk : Chunk) : Prop :=
  (chunk.origin = .whole chunk.origin.item ∨ chunk.origin = .selection chunk.origin.item) ∧
    ∃ edit ∈ closure.edits session.program (session.stays closure chunk.origin.item), edit.text = rename.useText.toList

variable {session : Session} {closure : Closure} {kept : IdSet} {requested : List String} {extraction : Extraction}

theorem Rewrites.origin {rename : Rename} {chunk : Chunk} (rewrites : session.Rewrites closure rename chunk) :
    chunk.origin.declItem? = some chunk.origin.item ∧ chunk.origin.chain? session.program = none := by
  rcases rewrites.1 with whole | selection
  · rw [whole]
    exact ⟨rfl, rfl⟩
  · rw [selection]
    exact ⟨rfl, rfl⟩

theorem exists_members_of_stay {item : ItemId} {id : DeclId} (stay : id ∈ session.stays closure item) :
    ∃ members, (session.program.item item).kind = .decls members ∧ id ∈ members := by
  have listed := (mem_stays.mp stay).1
  unfold Program.membersOf at listed
  split at listed
  · next members kind => exact ⟨members, kind, listed⟩
  · cases listed

theorem body_of_editedBody {program : Program} {id : DeclId} {body : Stmt}
    (found : Closure.editedBody? program id = some body) : (program.decl id).kind.body? = some body := by
  unfold Closure.editedBody? at found
  cases kind : (program.decl id).kind <;> rw [kind] at found <;> first | exact found | cases found

/-- A function or variable at file scope has a declarator that can be cut out of the text, so its pointer can be
written. -/
theorem exists_pointerChunk (laid : session.program.Laid .sound) {id : DeclId} (known : id < session.program.decls.size)
    (outer : (session.program.decl id).context = none) (symbol : (session.program.decl id).kind.sort = .symbol)
    (rename : Rename) : ∃ chunk, session.pointerChunk? (session.program.decl id).item id rename = some chunk := by
  obtain ⟨spans, named⟩ := laid.declarator known outer (.inl symbol)
  obtain ⟨own, full, bare, name, -, -, -, inFull, inBare, rfl⟩ := laid.declarator_place known named
  have bareText : session.program.text (bare.inFile (session.program.item (session.program.decl id).item).file) =
      Text.slice (session.program.file (session.program.item (session.program.decl id).item).file).text
        bare.start bare.stop := rfl
  have toStop := inBare.start.trans inBare.proper
  have front := Text.slice_append inFull.opens inBare.opens inFull.closes inBare.start (inBare.proper.trans inBare.stop)
  have back := Text.slice_append inFull.opens inBare.closes inFull.closes toStop inBare.stop
  have frontLength := Text.byteLength_slice inFull.opens inBare.opens inBare.start
  have backLength := Text.byteLength_slice inFull.opens inBare.closes toStop
  have before := Text.takeBytes_eq_some.mpr ⟨_, bareText.trans front, frontLength⟩
  have after := Text.dropBytes_eq_some.mpr ⟨_, bareText.trans back, backLength⟩
  exact ⟨_, pointerChunk_eq_some.mpr ⟨_, _, _, named, inBare.start, toStop, before, after, rfl⟩⟩

/-- Before the item of the first declaration of an entity, no pointer of it is printed. -/
theorem chain_not_mem_doneBefore (laid : session.program.Laid .sound) {first : Nat}
    (known : first < session.program.decls.size)
    (leads : ∀ earlier : Nat, earlier < first →
      (session.program.decl earlier).chain ≠ (session.program.decl first).chain) :
    (session.program.decl first).chain ∉ session.doneBefore closure kept (session.program.decl first).item := by
  intro done
  rcases exists_of_mem_doneFrom done with none | ⟨item, before, members, opens, id, marked, -, chain⟩
  · cases none
  · have less : item < (session.program.decl first).item := List.mem_range.mp before
    have itemKnown : item < session.program.items.size := less.trans (laid.holds known).1
    obtain ⟨inside, place, -⟩ := (laid.mem_members itemKnown opens.kind).mp (mem_marked.mp marked).1
    by_cases earlier : (id : Nat) < first
    · exact leads id earlier chain
    · have later := laid.ascends first id (Nat.not_lt.mp earlier) inside
      rw [place] at later
      exact absurd less (Nat.not_lt.mpr later)

/-- A body that uses a symbol belongs to the item of the symbol's first declaration or to one behind it. -/
theorem item_le_of_rewrites (sound : session.IsSound) (found : session.closure requested = .ok closure)
    {rename : Rename} (member : rename ∈ closure.renames) {first : Nat}
    (leads : ∀ earlier : Nat, earlier < first → (session.program.decl earlier).chain ≠ rename.chain) {chunk : Chunk}
    (known : chunk.origin.item < session.program.items.size) (rewrites : session.Rewrites closure rename chunk) :
    (session.program.decl first).item ≤ chunk.origin.item := by
  have laid := sound.laid
  obtain ⟨-, edit, listed, text⟩ := rewrites
  obtain ⟨id, stay, called⟩ := (Closure.mem_edits sound.isRead.consistent.locals).mp listed
  obtain @⟨body, stmt, named, other, edited, chain, reference, pointer⟩ := called
  obtain ⟨lookup, joined⟩ := Closure.renameFor_eq_some.mp pointer
  -- The pointer that was put in belongs to the symbol.
  have same : other = rename := by
    obtain ⟨otherMember, otherNamed⟩ := Closure.renameNamed_eq_some lookup
    have unique := find_of_ascending (closure_renames_ascending found) member
    rw [Closure.renameNamed?, otherNamed, Rename.symbol_eq_of_useText text, unique] at lookup
    exact (Option.some.inj lookup).symm
  obtain ⟨members, kind, inMembers⟩ := exists_members_of_stay stay
  obtain ⟨inside, place, -⟩ := (laid.mem_members known kind).mp inMembers
  obtain ⟨namedKnown, before⟩ := laid.reached_reference inside (body_of_editedBody edited) chain reference
  have notEarlier : first ≤ named := by
    by_contra earlier
    exact leads named (Nat.not_le.mp earlier) (joined.symm.trans (congrArg Rename.chain same))
  rw [← place]
  exact (laid.ascends first named notEarlier namedKnown).trans before

/-- When the item of the first declaration is looked at, the pointer is printed there. -/
theorem Opens.exists_pointer (laid : session.program.Laid .sound) {first : Nat} {members : List DeclId}
    (known : first < session.program.decls.size) (outer : (session.program.decl first).context = none)
    (symbol : (session.program.decl first).kind.sort = .symbol) (marked : first ∈ closure.decls) {rename : Rename}
    (pointed : closure.renameFor? session.program first = some rename)
    (leads : ∀ earlier : Nat, earlier < first →
      (session.program.decl earlier).chain ≠ (session.program.decl first).chain)
    (opens : session.Opens kept (session.program.decl first).item members) : ∃ pointer,
      session.pointerChunk? (session.program.decl first).item first rename = some pointer ∧
      pointer ∈ (session.splitParts closure (session.program.decl first).item
        (session.doneBefore closure kept (session.program.decl first).item)
          (session.marked closure members)).pointers := by
  obtain ⟨pointer, made⟩ := exists_pointerChunk laid known outer symbol rename
  refine ⟨pointer, made, ?_⟩
  have itemKnown := (laid.holds known).1
  have listed : first ∈ session.marked closure members := by
    apply mem_marked.mpr
    exact ⟨(laid.mem_members itemKnown opens.kind).mpr ⟨known, rfl, outer⟩,
      Option.isSome_iff_exists.mpr (laid.declarator known outer (.inl symbol)), marked⟩
  obtain ⟨front, back, split⟩ := List.append_of_mem listed
  have ascending : (session.marked closure members).Pairwise (· < ·) :=
    ((laid.members_ascending itemKnown opens.kind).filter _).filter _
  rw [split] at ascending ⊢
  apply mem_pointers pointed (chain_not_mem_doneBefore laid known leads) _ made
  intro other before _
  exact leads other ((List.pairwise_append.mp ascending).2.2 other before first List.mem_cons_self)

/-- In front of a pointer stand other items, lines of the preprocessor and pointers, but nothing that its item prints in
full. -/
theorem Opens.pointer_split {item : Nat} {members : List DeclId} (known : item < session.program.items.size)
    (opens : session.Opens kept item members) {pointer : Chunk}
    (own : pointer ∈ (session.splitParts closure item (session.doneBefore closure kept item)
      (session.marked closure members)).pointers) :
    ∃ before after, session.chunks closure kept = before ++ pointer :: after ∧ ∀ chunk ∈ before,
      chunk.origin.item < item ∨ chunk.origin.declItem? = none ∨
        (chunk.origin.chain? session.program).isSome = true := by
  obtain ⟨ahead, behind, pointers⟩ := List.append_of_mem own
  obtain ⟨front, back, chunks, earlier, -⟩ := @chunks_split session closure kept item known
  rw [opens.itemChunks_eq, declChunks] at chunks
  dsimp only at chunks
  rw [← marked, pointers] at chunks
  generalize (session.printedChunk? closure item members _).toList = printed at chunks
  refine ⟨front ++ session.undefChunks closure item ++ ahead, behind ++ printed ++ back, ?_, fun chunk present => ?_⟩
  · rw [chunks]
    simp only [List.append_assoc, List.cons_append]
  · rcases List.mem_append.mp present with rest | other
    · rcases List.mem_append.mp rest with before | removal
      · exact .inl (earlier chunk before)
      · obtain ⟨name, -, rfl⟩ := List.mem_map.mp removal
        exact .inr (.inl rfl)
    · have listed := List.mem_append_left (pointer :: behind) other
      rw [← pointers] at listed
      obtain ⟨id, origin⟩ := pointers_origin _ chunk listed
      rw [origin]
      exact .inr (.inr rfl)

theorem chain_ne_of_split {before after : List Chunk} {pointer : Chunk} {chain : ChainId}
    (split : session.chunks closure kept = before ++ pointer :: after)
    (own : pointer.origin.chain? session.program = some chain) :
    ∀ chunk ∈ before ++ after, chunk.origin.chain? session.program ≠ some chain := by
  have distinct := @chunks_chains_nodup session closure kept
  have head : pointerChains session.program (pointer :: after) = chain :: pointerChains session.program after := by
    simp [pointerChains, own]
  rw [split, pointerChains_append, head, List.nodup_middle, List.nodup_cons, ← pointerChains_append] at distinct
  intro chunk member same
  exact distinct.1 (List.mem_filterMap.mpr ⟨chunk, member, same⟩)

/-- When headers are taken into the output, each symbol behind a pointer has one pointer, at the first marked
declaration of its entity at file scope and before all its uses, if and only if the item of that declaration has an
outermost declaration at file scope. A first declaration that takes up its whole item provides for that. -/
theorem pointer_ahead_iff_shows (sound : session.IsSound) (flat : session.keepIncludes = false)
    (found : session.extract requested = .ok extraction) {rename : Rename}
    (member : rename ∈ extraction.closure.renames) :
    ∃ first, session.firstMarked? extraction.closure rename.chain = some first ∧
      ((∃ before pointer after,
          session.chunks extraction.closure extraction.kept = before ++ pointer :: after ∧
          session.pointerChunk? (session.program.decl first).item first rename = some pointer ∧
          pointer.origin.chain? session.program = some rename.chain ∧
          (∀ chunk ∈ before ++ after, chunk.origin.chain? session.program ≠ some rename.chain) ∧
          ∀ chunk ∈ before, ¬session.Rewrites extraction.closure rename chunk) ↔
        session.Shows extraction.closure (session.program.decl first).item) ∧
      ((session.program.decl first).span = (session.program.item (session.program.decl first).item).span →
        session.Shows extraction.closure (session.program.decl first).item) := by
  have laid := sound.laid
  have closed := extract_eq_ok found
  obtain ⟨first, isFirst, marked, outer, symbol, chain, pointed, leads⟩ := firstMarked_of_mem sound closed member
  have known := extract_lt sound found marked
  have itemKnown := (laid.holds known).1
  refine ⟨first, isFirst, ⟨fun printed => ?_, fun shows => ?_⟩, fun span => ?_⟩
  · obtain ⟨before, pointer, after, split, made, -⟩ := printed
    have present : pointer ∈ session.chunks extraction.closure extraction.kept := by simp [split]
    exact shows_of_mem sound found present (by rw [pointerChunk_origin made]; rfl)
  · have expanded : session.program.isFileExpanded session.keepIncludes
        (session.program.item (session.program.decl first).item).file = true := by
      obtain ⟨_, _, own⟩ := laid.items _ itemKnown
      rw [flat]
      exact sound.expanded own.file
    obtain ⟨members, opens⟩ := (opens_iff_shows sound found itemKnown expanded).mpr shows
    obtain ⟨pointer, made, own⟩ := opens.exists_pointer laid known outer symbol marked pointed (chain ▸ leads)
    obtain ⟨before, after, split, ahead⟩ := opens.pointer_split itemKnown own
    have origin : pointer.origin.chain? session.program = some rename.chain := by
      rw [pointerChunk_origin made, chain]
      rfl
    refine ⟨before, pointer, after, split, made, origin, chain_ne_of_split split origin,
      fun chunk present rewrites => ?_⟩
    rcases ahead chunk present with less | removal | other
    · have notBefore := item_le_of_rewrites sound closed member leads (less.trans itemKnown) rewrites
      exact absurd less (Nat.not_lt.mpr notBefore)
    · rw [rewrites.origin.1] at removal
      cases removal
    · rw [rewrites.origin.2] at other
      cases other
  · apply shows_of_span sound found marked outer _ span
    intro forward
    have tag := forward.1
    rw [DeclKind.isTag_eq, symbol] at tag
    cases tag

def declaredAhead : Session :=
  ({} : Config).session (.ofDocument ⟨[], []⟩ ⟨[]⟩ "unit.c"
    (Written.document
      [("", .group "declaration"
          [("", .group "storage_class_specifier" [("", .token "'static" "static")] ""),
            (" ", .token "type.primitive_type" "int"), (" ", .functionHead "g"), ("", .token "';" ";")] ""),
        ("\n", .function "a" (.call "g")), ("\n", .staticFunction "g" (.token "number_literal" "1"))]))

set_option maxRecDepth 10000 in
theorem pointer_ahead_declaredAhead : ∃ extraction, declaredAhead.extract ["a"] = .ok extraction ∧
    ∃ before pointer after,
      declaredAhead.chunks extraction.closure extraction.kept = before ++ pointer :: after ∧
      declaredAhead.pointerChunk? 0 0 ⟨"g", .function, 0⟩ = some pointer ∧
      (∀ chunk ∈ before ++ after, chunk.origin.chain? declaredAhead.program ≠ some 0) ∧
      ∀ chunk ∈ before, ¬declaredAhead.Rewrites extraction.closure ⟨"g", .function, 0⟩ chunk := by
  let extraction : Extraction :=
    { closure :=
        { roots := [1], decls := [0, 1, 2], macros := [], needsUndef := [], renames := [⟨"g", .function, 0⟩],
          passSizes := [3] }
      kept := [0, 1, 2]
      text := "static int (*klp_g)(void);\n\nint a(void) \x7b return klp_g(); \x7d\n".toList }
  have facts : declaredAhead.extract ["a"] = .ok extraction ∧ declaredAhead.keepIncludes = false ∧
      declaredAhead.firstMarked? extraction.closure 0 = some 0 ∧ (declaredAhead.program.decl 0).item = 0 ∧
      (declaredAhead.program.decl 0).span = (declaredAhead.program.item 0).span := by
    decide +kernel
  have sound : declaredAhead.IsSound := isSound_ofDocument _ (by decide +kernel)
  obtain ⟨found, flat, isFirst, place, span⟩ := facts
  have listed : (⟨"g", .function, 0⟩ : Rename) ∈ extraction.closure.renames := List.mem_singleton_self _
  obtain ⟨first, same, printed, shown⟩ := pointer_ahead_iff_shows sound flat found listed
  obtain rfl : 0 = first := Option.some.inj (isFirst.symm.trans same)
  rw [place] at printed shown
  obtain ⟨before, pointer, after, split, made, -, alone, ahead⟩ := printed.mpr (shown span)
  exact ⟨extraction, found, before, pointer, after, split, made, alone, ahead⟩

/-- A unit in which a block in front of a function body declares a `static` variable `z`, in an initializer of `y`. -/
def passedOverStatic : Session :=
  passedOver (.group "declaration"
    [("", .group "storage_class_specifier" [("", .token "'extern" "extern")] ""),
      (" ", .token "type.primitive_type" "int"), (" ", .group "declarator.init_declarator"
        [("", .token "declarator.identifier" "y"), (" ", .token "'=" "="),
          (" ", .blockValue "value.parenthesized_expression" (.storedObject "static" "z") (.reference "z"))] ""),
      ("", .token "';" ";")] "")

set_option maxRecDepth 10000 in
/-- The item is passed over, so the symbol `z` has no pointer. -/
theorem passedOverStatic_unpointed : ∃ extraction, passedOverStatic.extract ["g"] = .ok extraction ∧
    passedOverStatic.keepIncludes = false ∧ (⟨"z", .var, 2⟩ : Rename) ∈ extraction.closure.renames ∧
    (∀ chunk ∈ passedOverStatic.chunks extraction.closure extraction.kept,
      chunk.origin.chain? passedOverStatic.program = none) ∧
    extraction.text = "int y;\n\nint g(void) \x7b return y; \x7d\n".toList := by
  let extraction : Extraction :=
    { closure :=
        { roots := [8], decls := [0, 2, 3, 6, 7, 8], macros := [], needsUndef := [], renames := [⟨"z", .var, 2⟩],
          passSizes := [5, 6] }
      kept := [0, 6, 8]
      text := "int y;\n\nint g(void) \x7b return y; \x7d\n".toList }
  refine ⟨extraction, ?_⟩
  decide +kernel

end Session

end Excerpt
