import Excerpt.Proofs.Emission.Fidelity

namespace Excerpt

theorem MacroDirective.sameDefinition_comm (first second : MacroDirective) :
    first.sameDefinition second = second.sameDefinition first := by
  unfold sameDefinition
  cases first.kind with
  | undef => cases second.kind <;> rfl
  | define params body names =>
    cases second.kind with
    | undef => rfl
    | define params₂ body₂ names₂ => exact congrArg₂ (· && ·) BEq.comm BEq.comm

theorem nodup_eraseDups (names : List String) : names.eraseDups.Nodup := by
  match names with
  | [] => exact .nil
  | first :: rest =>
    rw [List.eraseDups_cons, List.nodup_cons]
    exact ⟨by simp, nodup_eraseDups _⟩
termination_by names.length
decreasing_by exact Nat.lt_succ_of_le (List.length_filter_le _ _)

theorem exists_chunk_of_definitionFrom {program : Program} {name : String} {id : MacroId} {chunks : List Chunk}
    {current : Option MacroId} (found : definitionFrom program name current chunks = some id)
    (fresh : current ≠ some id) :
    ∃ chunk ∈ chunks, ∃ item, chunk.origin = .directive id item := by
  induction chunks generalizing current with
  | nil => exact absurd found fresh
  | cons first rest ih =>
    rw [definitionFrom, List.foldl_cons] at found
    by_cases own : first.origin.define program name current = some id
    · refine ⟨first, List.mem_cons_self, ?_⟩
      cases origin : first.origin with
      | undef removed item =>
        simp only [origin, ChunkOrigin.define] at own
        split_ifs at own
        exact absurd own fresh
      | directive other item =>
        simp only [origin, ChunkOrigin.define] at own
        split_ifs at own
        · cases own
          exact ⟨item, rfl⟩
        · exact absurd own fresh
      | inclusion | pointer | whole | selection | tags =>
        rw [origin] at own
        exact absurd own fresh
    · obtain ⟨chunk, member, printed⟩ := ih found own
      exact ⟨chunk, List.mem_cons_of_mem _ member, printed⟩

theorem definitionFrom_of_others {program : Program} {name : String} {current : Option MacroId} {item : ItemId}
    {names : List String} (others : ∀ other ∈ names, other ≠ name) :
    definitionFrom program name current
      (names.map fun name => Chunk.mk (.undef name item) ("#undef " ++ name).toList) = current := by
  induction names with
  | nil => rfl
  | cons first rest ih =>
    have different := others first List.mem_cons_self
    rw [List.map_cons, definitionFrom, List.foldl_cons]
    simp only [ChunkOrigin.define, if_neg different]
    exact ih fun other member => others other (List.mem_cons_of_mem _ member)

namespace Session

variable {session : Session} {closure : Closure} {kept : IdSet} {done : List ChainId} {requested : List String}
  {name : String}

section Own

variable {before after : List Chunk} {chunk : Chunk} {item : Nat}
  (split : (session.itemChunks closure kept done item).1 = before ++ chunk :: after)
include split

/-- The directive of an item stands behind the removals of the item, and nothing else does. -/
theorem printed_of_ownChunks {id : MacroId} {target : ItemId} (origin : chunk.origin = .directive id target) :
    target = item ∧ session.printedDirective? closure item = some id ∧ before = session.undefChunks closure item := by
  obtain ⟨tail, shape, form⟩ := session.itemChunks_eq closure kept done item
  rw [split] at shape
  rcases mem_append_split shape.symm with ⟨more, removals⟩ | ⟨front, beforeShape, tailShape⟩
  · have member : chunk ∈ session.undefChunks closure item := by simp [removals]
    obtain ⟨removed, -, rfl⟩ := List.mem_map.mp member
    cases origin
  · cases form with
    | decls expanded kind origins =>
      have own := origins chunk (by simp [tailShape])
      rw [origin] at own
      cases own
    | directive printed =>
      obtain ⟨rfl, rfl, -⟩ : front = [] ∧ _ ∧ _ := by simpa [List.singleton_eq_append_iff] using tailShape
      cases origin
      exact ⟨rfl, printed, by rw [beforeShape, List.append_nil]⟩
    | inclusion silent =>
      obtain ⟨rfl, rfl, -⟩ : front = [] ∧ _ ∧ _ := by simpa [List.singleton_eq_append_iff] using tailShape
      cases origin
    | empty silent => simp at tailShape

/-- A name is removed once in an item, so nothing in front of a removal touches the name. -/
theorem removed_of_ownChunks {target : ItemId} (origin : chunk.origin = .undef name target) :
    target = item ∧ name ∈ session.undefsBefore closure item ∧
      ∀ current, definitionFrom session.program name current before = current := by
  obtain ⟨tail, shape, form⟩ := session.itemChunks_eq closure kept done item
  rw [split] at shape
  rcases mem_append_split shape.symm with ⟨more, removals⟩ | ⟨front, -, tailShape⟩
  · obtain ⟨names, rest, names_eq, rfl, restShape⟩ := List.map_eq_append_iff.mp removals
    obtain ⟨own, others, rfl, rfl, -⟩ := List.map_eq_cons_iff.mp restShape
    cases origin
    have distinct : (names ++ name :: others).Nodup := by
      rw [← names_eq]
      exact nodup_eraseDups _
    refine ⟨rfl, by simp [names_eq], fun current => definitionFrom_of_others fun other member => ?_⟩
    intro same
    exact (List.nodup_append.mp distinct).2.2 other member name List.mem_cons_self same
  · -- Behind its removals an item removes nothing.
    have member : chunk ∈ tail := by simp [tailShape]
    cases form with
    | decls expanded kind origins =>
      have own := origins chunk member
      rw [origin] at own
      cases own
    | directive printed =>
      rw [List.mem_singleton.mp member] at origin
      cases origin
    | inclusion silent =>
      rw [List.mem_singleton.mp member] at origin
      cases origin
    | empty silent => cases member

end Own

section Run

variable (unit : session.program.Unrolling [])
include unit

/-- By induction on the items: a definition in force was printed, and no removal of its name has followed. -/
theorem printed_of_definitionAt {item id : Nat} (within : item ≤ session.program.items.size)
    (found : session.definitionAt closure name item = some id) :
    session.printedDirective? closure (session.program.directive id).item = some id ∧
      (session.program.directive id).name = name ∧ (session.program.directive id).item < item ∧
      ∀ j : Nat, (session.program.directive id).item < j → j < item → name ∉ session.undefsBefore closure j := by
  induction item with
  | zero => cases found
  | succ item ih =>
    rw [definitionAt_succ] at found
    by_cases own : ∃ other, session.printedDirective? closure item = some other ∧
        (session.program.directive other).name = name
    · obtain ⟨other, printed, named⟩ := own
      rw [afterItem_printed printed named] at found
      cases found
      obtain ⟨-, place, -⟩ := item_of_printed unit within printed
      rw [place]
      refine ⟨printed, named, Nat.lt_succ_self item, fun j behind below => ?_⟩
      exact absurd behind (Nat.not_lt.mpr (Nat.le_of_lt_succ below))
    · rw [afterItem_other fun other printed named => own ⟨other, printed, named⟩, afterUndefs] at found
      split_ifs at found with removed
      obtain ⟨printed, named, earlier, stays⟩ := ih (Nat.le_of_succ_le within) found
      refine ⟨printed, named, Nat.lt_succ_of_lt earlier, fun j behind below => ?_⟩
      rcases Nat.lt_succ_iff_lt_or_eq.mp below with less | same
      · exact stays j behind less
      · exact same ▸ removed

/-- The removal of a replaced definition stands behind the definition and no later than what replaces it. -/
theorem slot_of_replaced {id next : Nat} (inside : id < session.program.macros.size)
    (replaced : session.isReplaced id = true) (isNext : session.program.IsNext id next) :
    (session.program.directive id).item <
        session.program.emissionSlot session.keepIncludes (session.program.directive next).item ∧
      session.program.emissionSlot session.keepIncludes (session.program.directive next).item ≤
        (session.program.directive next).item := by
  obtain ⟨within, kind, seq⟩ := Program.directive_item unit inside
  obtain ⟨nextWithin, -, -⟩ := Program.directive_item unit isNext.inside
  have expanded : session.program.isFileExpanded session.keepIncludes
      (session.program.item (session.program.directive id).item).file = true := by
    simp only [isReplaced, Bool.and_eq_true] at replaced
    rw [← seq]
    exact replaced.1.2
  exact ⟨Program.lt_emissionSlot unit nextWithin isNext.later expanded (by simp [kind]),
    Program.emissionSlot_le unit nextWithin⟩

variable (undefs : closure.needsUndef = closure.macros.filter session.isReplaced)
  (known : ∀ id ∈ closure.macros, id < session.program.macros.size)
include undefs known

/-- Before that slot no removal of the name stands: it would stand for a directive in between. -/
theorem not_removed_before_slot {id next j : Nat} (inside : id < session.program.macros.size)
    (isNext : session.program.IsNext id next) (behind : (session.program.directive id).item < j)
    (below : j < session.program.emissionSlot session.keepIncludes (session.program.directive next).item)
    (bound : session.program.emissionSlot session.keepIncludes (session.program.directive next).item ≤
      (session.program.directive next).item) :
    (session.program.directive id).name ∉ session.undefsBefore closure j := by
  intro removed
  obtain ⟨other, behindOther, marked, replaced, named, otherNext, slot⟩ := removal_of_mem unit undefs known removed
  obtain ⟨lower, upper⟩ := slot_of_replaced unit (known other marked) replaced otherNext
  rw [← slot] at lower upper
  rcases Nat.lt_trichotomy (session.program.directive other).item (session.program.directive id).item with
    early | same | late
  · -- The other removal stands for a directive at or before this definition.
    have reached := otherNext.first id inside named.symm early
    exact Nat.lt_irrefl _ ((upper.trans reached).trans_lt behind)
  · obtain rfl := Program.directive_of_item unit (known other marked) inside same
    have first := isNext.first behindOther otherNext.inside otherNext.named otherNext.later
    have second := otherNext.first next isNext.inside isNext.named isNext.later
    rw [slot, Nat.le_antisymm second first] at below
    exact Nat.lt_irrefl _ below
  · -- The other definition stands behind the next directive.
    have reached := isNext.first other (known other marked) named late
    exact Nat.lt_irrefl _ (((lower.trans below).trans_le bound).trans_le reached)

/-- A removal meets the definition that it belongs to. -/
theorem definitionAt_of_removed {item : Nat} (within : item < session.program.items.size)
    (removed : name ∈ session.undefsBefore closure item) :
    ∃ id next : Nat, id ∈ closure.needsUndef ∧ (session.program.directive id).name = name ∧
      session.definitionAt closure name item = some id ∧ session.program.IsNext id next ∧
      item ≤ (session.program.directive next).item := by
  obtain ⟨id, next, marked, replaced, rfl, isNext, rfl⟩ := removal_of_mem unit undefs known removed
  have inside := known id marked
  obtain ⟨lower, upper⟩ := slot_of_replaced unit inside replaced isNext
  have listed : id ∈ closure.needsUndef := by
    rw [undefs]
    exact List.mem_filter.mpr ⟨marked, replaced⟩
  have expanded : session.isMacroExpanded id = true := by
    simp only [isReplaced, Bool.and_eq_true] at replaced
    exact replaced.1.2
  refine ⟨id, next, listed, rfl, ?_, isNext, upper⟩
  apply definitionAt_of_printed unit within inside marked expanded lower
  · intro other otherMarked named earlier
    by_contra late
    have reached := isNext.first other (known other otherMarked) named (Nat.lt_of_not_le late)
    exact Nat.lt_irrefl _ ((earlier.trans_le upper).trans_le reached)
  · intro j behind below
    exact not_removed_before_slot unit undefs known inside isNext behind below upper

omit known in
/-- A different definition further on makes the earlier one a replaced one, and its removal stands between the two. So
one that is still in force says the same. -/
theorem sameDefinition_of_definitionAt {active id : Nat} (inside : id < session.program.macros.size)
    (define : (session.program.directive id).isDefine = true)
    (defines : ∀ other ∈ closure.macros, (session.program.directive other).isDefine = true)
    (found : session.afterUndefs closure (session.program.directive id).name
      (session.definitionAt closure (session.program.directive id).name (session.program.directive id).item)
      (session.program.directive id).item = some active) :
    (session.program.directive active).sameDefinition (session.program.directive id) = true := by
  obtain ⟨within, -, -⟩ := Program.directive_item unit inside
  rw [afterUndefs] at found
  split_ifs at found with removed
  obtain ⟨printed, named, earlier, stays⟩ := printed_of_definitionAt unit within.le found
  obtain ⟨activeInside, -, marked⟩ := item_of_printed unit (earlier.trans within) printed
  by_contra different
  -- Otherwise the definition in force is a replaced one, and its removal stands at or before the new definition.
  have later := Program.mem_laterDirectives.mpr
    ⟨inside, named.symm, (Program.directive_before_iff unit activeInside inside).mpr earlier⟩
  have replaced : session.isReplaced active = true := by
    obtain ⟨expanded, -, -⟩ := printedDirective_eq_some.mp printed
    obtain ⟨-, -, seq⟩ := Program.directive_item unit activeInside
    have position : session.isMacroExpanded active = true := by
      rw [← seq] at expanded
      exact expanded
    rw [isReplaced, defines active marked, position, Bool.true_and, Bool.true_and]
    refine List.any_eq_true.mpr ⟨id, List.mem_filter.mpr ⟨later, define⟩, ?_⟩
    rw [MacroDirective.sameDefinition_comm, Bool.eq_false_iff.mpr different]
    rfl
  obtain ⟨next, foundNext⟩ := Program.nextDirective_of_mem later
  have isNext := Program.isNext_of_nextDirective unit activeInside foundNext
  obtain ⟨lower, upper⟩ := slot_of_replaced unit activeInside replaced isNext
  have gone : (session.program.directive id).name ∈ session.undefsBefore closure
      (session.program.emissionSlot session.keepIncludes (session.program.directive next).item) := by
    refine mem_undefsBefore.mpr ⟨active, ?_, ?_, named⟩
    · rw [undefs]
      exact List.mem_filter.mpr ⟨marked, replaced⟩
    · rw [undefSlot?, foundNext, Option.map_some]
  have reached := upper.trans (isNext.first id inside named.symm earlier)
  rcases Nat.lt_or_eq_of_le reached with less | same
  · exact stays _ lower less gone
  · rw [same] at gone
    exact removed gone

end Run

/-- In the output no definition meets a different one of its name, and each removal meets the printed definition that it
belongs to, at or before the next directive of the name. -/
theorem definitions_compatible {extraction : Extraction} {before after : List Chunk} {chunk : Chunk}
    (read : session.IsRead) (found : session.extract requested = .ok extraction)
    (split : session.chunks extraction.closure extraction.kept = before ++ chunk :: after) :
    (∀ id item, chunk.origin = .directive id item →
      definitionIn session.program (session.program.directive id).name before = none ∨
        ∃ active, definitionIn session.program (session.program.directive id).name before = some active ∧
          (session.program.directive active).sameDefinition (session.program.directive id) = true) ∧
    ∀ name item, chunk.origin = .undef name item →
      ∃ id next, id ∈ extraction.closure.needsUndef ∧ (session.program.directive id).name = name ∧
        (∃ earlier ∈ before, ∃ place, earlier.origin = .directive id place) ∧
        definitionIn session.program name before = some id ∧ session.program.IsNext id next ∧
        item ≤ (session.program.directive next).item := by
  have unit := read.unrolled
  have closed := extract_eq_ok found
  have undefs := needsUndef_eq closed
  have definitions := isDefine_of_marked read closed
  have known := fun id marked => (definitions id marked).1
  obtain ⟨target, done, own, more, within, place, value⟩ := definitionIn_split split
  constructor
  · intro id item origin
    obtain ⟨rfl, printed, rfl⟩ := printed_of_ownChunks place origin
    obtain ⟨inside, here, marked⟩ := item_of_printed unit within printed
    rw [value, definitionFrom_undefChunks]
    cases active : session.afterUndefs extraction.closure (session.program.directive id).name
        (session.definitionAt extraction.closure (session.program.directive id).name item) item with
    | none => exact .inl rfl
    | some other =>
      rw [← here] at active
      refine .inr ⟨other, rfl, sameDefinition_of_definitionAt unit undefs inside (definitions id marked).2
        (fun other marked => (definitions other marked).2) active⟩
  · intro name item origin
    obtain ⟨rfl, removed, silent⟩ := removed_of_ownChunks place origin
    obtain ⟨id, next, listed, named, active, isNext, bound⟩ := definitionAt_of_removed unit undefs known within removed
    have inForce : definitionIn session.program name before = some id := by rw [value, silent, active]
    exact ⟨id, next, listed, named, exists_chunk_of_definitionFrom inForce (by simp), inForce, isNext, bound⟩

def redefiningHeader : FileSystem :=
  ⟨[(["h.h"], .document (Written.document [("", .define "B" "2"), ("", .object "hidden")]))], []⟩

def repeatedDefinitions : Session :=
  ({ keepIncludes := true } : Config).session (.ofDocument redefiningHeader ⟨[]⟩ "unit.c"
    (Written.document
      [("", .define "A" "1"), ("", .function "f" (.reference "A")), ("\n", .define "A" "1"),
        ("", .function "g" (.reference "A")), ("\n", .define "B" "1"), ("", .function "h" (.reference "B")),
        ("\n", .inclusion "\"h.h\""), ("", .function "k" (.reference "hidden"))]))

set_option maxRecDepth 10000 in
theorem definitions_compatible_repeatedDefinitions : ∃ extraction before chunk between removal after,
    repeatedDefinitions.extract ["f", "g", "h", "k"] = .ok extraction ∧
    repeatedDefinitions.chunks extraction.closure extraction.kept =
      before ++ chunk :: (between ++ removal :: after) ∧
    chunk.origin = .directive 1 2 ∧ removal.origin = ChunkOrigin.undef "B" 6 ∧
    (definitionIn repeatedDefinitions.program (repeatedDefinitions.program.directive 1).name before = none ∨
      ∃ active, definitionIn repeatedDefinitions.program
        (repeatedDefinitions.program.directive 1).name before = some active ∧
        (repeatedDefinitions.program.directive active).sameDefinition
          (repeatedDefinitions.program.directive 1) = true) ∧
    ∃ id next, id ∈ extraction.closure.needsUndef ∧ (repeatedDefinitions.program.directive id).name = "B" ∧
      (∃ earlier ∈ before ++ chunk :: between, ∃ place, earlier.origin = .directive id place) ∧
      definitionIn repeatedDefinitions.program "B" (before ++ chunk :: between) = some id ∧
      repeatedDefinitions.program.IsNext id next ∧ 6 ≤ (repeatedDefinitions.program.directive next).item := by
  let extraction : Extraction :=
    { closure :=
        { roots := [0, 1, 2, 4], decls := [0, 1, 2, 3, 4], macros := [0, 1, 2], needsUndef := [2], renames := []
          passSizes := [4] }
      kept := [0, 1, 2, 3, 4]
      text := ("#define A 1\n\nint f(void) \x7b return A; \x7d\n\n#define A 1\n\nint g(void) \x7b return A; \x7d\n\n" ++
        "#define B 1\n\nint h(void) \x7b return B; \x7d\n\n#undef B\n\n#include \"h.h\"\n\n" ++
        "int k(void) \x7b return hidden; \x7d\n").toList }
  let before : List Chunk :=
    [⟨.directive 0 0, "#define A 1\n".toList⟩, ⟨.whole 1, "int f(void) \x7b return A; \x7d".toList⟩]
  let chunk : Chunk := ⟨.directive 1 2, "#define A 1\n".toList⟩
  let between : List Chunk :=
    [⟨.whole 3, "int g(void) \x7b return A; \x7d".toList⟩, ⟨.directive 2 4, "#define B 1\n".toList⟩,
      ⟨.whole 5, "int h(void) \x7b return B; \x7d".toList⟩]
  let removal : Chunk := ⟨ ChunkOrigin.undef "B" 6, "#undef B".toList⟩
  let after : List Chunk :=
    [⟨.inclusion 0 6, "#include \"h.h\"\n".toList⟩, ⟨.whole 9, "int k(void) \x7b return hidden; \x7d".toList⟩]
  have facts : repeatedDefinitions.extract ["f", "g", "h", "k"] = .ok extraction ∧
      repeatedDefinitions.chunks extraction.closure extraction.kept =
        before ++ chunk :: (between ++ removal :: after) := by
    decide +kernel
  obtain ⟨found, split⟩ := facts
  have later : repeatedDefinitions.chunks extraction.closure extraction.kept =
      (before ++ chunk :: between) ++ removal :: after := by
    rw [split, List.append_assoc]
    rfl
  refine ⟨extraction, before, chunk, between, removal, after, found, split, rfl, rfl, ?_, ?_⟩
  · exact (definitions_compatible ⟨_, _, _, _, rfl⟩ found split).1 1 2 rfl
  · exact (definitions_compatible ⟨_, _, _, _, rfl⟩ found later).2 "B" 6 rfl

end Session

end Excerpt
