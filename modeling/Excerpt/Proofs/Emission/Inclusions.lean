import Excerpt.Proofs.Draft.WellFormed
import Excerpt.Proofs.Emission.Presence

/-!
Headers that stay behind their directives.
-/

namespace Excerpt.Session

variable {session : Session} {closure : Closure} {requested : List String} {extraction : Extraction}

/-- A directive in expanded text stands for an item of a file that it brings in, and its line is printed. -/
structure Supplies (session : Session) (extraction : Extraction) (item : ItemId) (k : IncludeId) : Prop where
  slot : session.program.emissionSlot session.keepIncludes item = (session.program.inclusion k).item
  kind : (session.program.item (session.program.inclusion k).item).kind = .inclusion k
  expanded : session.program.isFileExpanded session.keepIncludes
    (session.program.item (session.program.inclusion k).item).file = true
  subtree : session.program.inSubtree k (session.program.item item).file = true
  chunk : Chunk.mk (.inclusion k (session.program.inclusion k).item)
      (session.program.text (session.program.item (session.program.inclusion k).item).span) ∈
    session.chunks extraction.closure extraction.kept
  text : Text.trim (session.program.text (session.program.item (session.program.inclusion k).item).span) <:+:
    extraction.text

theorem trim_infix_renderChunks {chunks : List Chunk} {chunk : Chunk} (member : chunk ∈ chunks) :
    Text.trim chunk.text <:+: renderChunks chunks := by
  by_cases blank : Text.trim chunk.text = []
  · rw [blank]
    exact List.nil_infix
  have listed : Text.trim chunk.text ∈ (chunks.map fun chunk => Text.trim chunk.text).filter (!·.isEmpty) :=
    List.mem_filter.mpr ⟨List.mem_map_of_mem member, by simpa using blank⟩
  unfold renderChunks
  split
  · next none =>
    rw [none] at listed
    cases listed
  · obtain ⟨front, back, joined⟩ := intercalate_of_mem listed
    rw [joined]
    exact ⟨front, back ++ ['\n'], by simp⟩

theorem keepsInclusion_of_needed {k file : Nat}
    (hidden : session.program.isInclusionExpanded session.keepIncludes k = false)
    (known : file < session.program.files.size) (needed : session.isNeeded closure file = true)
    (subtree : session.program.inSubtree k file = true) : session.keepsInclusion closure k = true := by
  have brought : ((List.range session.program.files.size).any fun file =>
      session.isNeeded closure file && session.program.inSubtree k file) = true :=
    List.any_eq_true.mpr ⟨file, List.mem_range.mpr known, by rw [needed, subtree]; rfl⟩
  rw [keepsInclusion, hidden, brought, Bool.or_true]
  rfl

theorem inclusion_mem_chunks (kept : IdSet) {k item : Nat} (within : item < session.program.items.size)
    (kind : (session.program.item item).kind = .inclusion k)
    (expanded : session.program.isFileExpanded session.keepIncludes (session.program.item item).file = true)
    (stays : session.keepsInclusion closure k = true) :
    Chunk.mk (.inclusion k item) (session.program.text (session.program.item item).span) ∈ session.chunks closure
      kept := by
  refine mem_chunksFrom (List.mem_range.mpr within) fun done => ?_
  simp only [itemChunks, expanded, kind, stays, if_true]
  exact List.mem_append_right _ (List.mem_singleton_self _)

/-- What is marked in a hidden file makes the file a needed one, so the line of the outermost hidden directive around it
is printed. -/
theorem exists_supplies (read : session.IsRead) (found : session.extract requested = .ok extraction) {item : Nat}
    (within : item < session.program.items.size)
    (needed : session.isNeeded extraction.closure (session.program.item item).file = true)
    (hidden : session.program.isFileExpanded session.keepIncludes (session.program.item item).file = false) :
    ∃ k, session.Supplies extraction item k := by
  have unit := read.unrolled
  obtain ⟨k, known, slot, subtree, closed, expanded⟩ := Program.emissionSlot_of_hidden unit within hidden
  obtain ⟨place, kind⟩ := unit.inclusion known
  have stays := keepsInclusion_of_needed closed (unit.nested.items item within) needed subtree
  have chunk := inclusion_mem_chunks extraction.kept place kind expanded stays
  have printed := trim_infix_renderChunks chunk
  rw [← (extract_kept found).2] at printed
  exact ⟨k, slot, kind, expanded, subtree, chunk, printed⟩

theorem IsRead.decl_file (read : session.IsRead) {id : Nat} (inside : id < session.program.decls.size) :
    (session.program.decl id).item < session.program.items.size ∧
      (session.program.decl id).span.file = (session.program.item (session.program.decl id).item).file := by
  obtain ⟨files, search, path, document, same⟩ := read
  have laid := Program.ofDocument_laidFree files search path document
  rw [← same] at laid
  exact ⟨(laid.holds inside).1, laid.span_file inside⟩

theorem IsRead.directive_file (read : session.IsRead) {id : Nat} (inside : id < session.program.macros.size) :
    (session.program.directive id).span.file = (session.program.item (session.program.directive id).item).file := by
  obtain ⟨files, search, path, document, same⟩ := read
  have opened := Program.ofDocument_opened files search path document
  rw [← same] at opened
  exact opened.directive_file inside

/-- Whatever is marked behind a header that stays a directive is supplied by a printed line. -/
theorem hidden_supplied (read : session.IsRead) (found : session.extract requested = .ok extraction) :
    (∀ id : DeclId, id ∈ extraction.closure.decls →
      session.program.isFileExpanded session.keepIncludes (session.program.decl id).span.file = false →
        ∃ k, session.Supplies extraction (session.program.decl id).item k) ∧
    ∀ id : MacroId, id ∈ extraction.closure.macros →
      session.program.isFileExpanded session.keepIncludes (session.program.directive id).span.file = false →
        ∃ k, session.Supplies extraction (session.program.directive id).item k := by
  have closed := extract_eq_ok found
  constructor
  · intro id marked hidden
    obtain ⟨within, file⟩ := read.decl_file (closure_lt read.consistent closed marked)
    have needed : (extraction.closure.decls.any fun other => (session.program.decl other).span.file ==
        (session.program.item (session.program.decl id).item).file) = true :=
      List.any_eq_true.mpr ⟨id, marked, by rw [file, beq_self_eq_true]⟩
    apply exists_supplies read found within
    · rw [isNeeded, needed, Bool.true_or]
    · rw [← file]
      exact hidden
  · intro id marked hidden
    have inside := (isDefine_of_marked read closed id marked).1
    have file := read.directive_file inside
    have needed : (extraction.closure.macros.any fun other => (session.program.directive other).span.file ==
        (session.program.item (session.program.directive id).item).file) = true :=
      List.any_eq_true.mpr ⟨id, marked, by rw [file, beq_self_eq_true]⟩
    apply exists_supplies read found (Program.directive_item read.unrolled inside).1
    · rw [isNeeded, needed, Bool.or_true]
    · rw [← file]
      exact hidden

def nestedHeaders : FileSystem :=
  ⟨[(["outer.h"], .document (Written.document [("", .inclusion "\"inner.h\""), ("", .define "LIMIT" "hidden")])),
    (["inner.h"], .document (Written.document [("", .object "hidden")]))], []⟩

/-- A unit that brings in both headers, and the inner one again, behind directives that are kept. -/
def keptHeaders : Session :=
  ({ keepIncludes := true } : Config).session (.ofDocument nestedHeaders ⟨[]⟩ "unit.c"
    (Written.document
      [("", .inclusion "\"outer.h\""), ("", .inclusion "\"inner.h\""), ("", .function "f" (.reference "LIMIT"))]))

set_option maxRecDepth 10000 in
theorem hidden_supplied_keptHeaders : ∃ extraction, keptHeaders.extract ["f"] = .ok extraction ∧
    extraction.text = "#include \"outer.h\"\n\nint f(void) \x7b return LIMIT; \x7d\n".toList ∧
    (∃ k, keptHeaders.Supplies extraction (keptHeaders.program.decl 0).item k) ∧
    ∃ k, keptHeaders.Supplies extraction (keptHeaders.program.directive 0).item k := by
  let extraction : Extraction :=
    { closure := { roots := [1], decls := [0, 1], macros := [0], needsUndef := [], renames := [], passSizes := [1] }
      kept := [0, 1]
      text := "#include \"outer.h\"\n\nint f(void) \x7b return LIMIT; \x7d\n".toList }
  have facts : keptHeaders.extract ["f"] = .ok extraction ∧
      keptHeaders.program.isFileExpanded keptHeaders.keepIncludes (keptHeaders.program.decl 0).span.file = false ∧
      keptHeaders.program.isFileExpanded keptHeaders.keepIncludes
        (keptHeaders.program.directive 0).span.file = false := by
    decide +kernel
  obtain ⟨found, declHidden, directiveHidden⟩ := facts
  obtain ⟨decls, directives⟩ := hidden_supplied ⟨_, _, _, _, rfl⟩ found
  exact ⟨extraction, found, rfl, decls 0 (by decide) declHidden, directives 0 (by decide) directiveHidden⟩

end Excerpt.Session

namespace Excerpt.Program

structure IsSlot (program : Program) (keepIncludes : Bool) (slot id : ItemId) : Prop where
  expanded : program.isFileExpanded keepIncludes (program.item slot).file = true
  le : slot ≤ id
  eq_iff : slot = id ↔ program.isFileExpanded keepIncludes (program.item id).file = true
  directive : program.isFileExpanded keepIncludes (program.item id).file = false →
    ∃ k, (program.item slot).kind = .inclusion k ∧ program.isInclusionExpanded keepIncludes k = false ∧
      program.inSubtree k (program.item id).file = true
  between : ∀ other : ItemId, slot < other → other ≤ id →
    program.isFileExpanded keepIncludes (program.item other).file = false
  /-- The other expanded items lie on the same side of both. -/
  sides : ∀ other : ItemId, program.isFileExpanded keepIncludes (program.item other).file = true → other ≠ slot →
    (other < slot ↔ other < id)

theorem IsSlot.of_expanded {program : Program} {keepIncludes : Bool} {id : ItemId}
    (expanded : program.isFileExpanded keepIncludes (program.item id).file = true) :
    program.IsSlot keepIncludes id id where
  expanded := expanded
  le := Nat.le_refl _
  eq_iff := iff_of_true rfl expanded
  directive hidden := by
    rw [expanded] at hidden
    cases hidden
  between _ after upTo := absurd (Nat.lt_of_lt_of_le after upTo) (Nat.lt_irrefl _)
  sides _ _ _ := Iff.rfl

/-- No expanded item lies between a directive and what it stands for, since all in between is inside its header. -/
theorem IsSlot.of_hidden {program : Program} {keepIncludes : Bool} {id : ItemId} {k : IncludeId}
    (unit : program.Unrolling []) (inside : id < program.items.size) (known : k < program.includes.size)
    (hidden : program.isFileExpanded keepIncludes (program.item id).file = false)
    (subtree : program.inSubtree k (program.item id).file = true)
    (closed : program.isInclusionExpanded keepIncludes k = false)
    (expanded : program.isFileExpanded keepIncludes (program.item (program.inclusion k).item).file = true) :
    program.IsSlot keepIncludes (program.inclusion k).item id := by
  have encloses : program.Encloses k (program.around id) :=
    encloses_of_mem_inclusionsFrom (List.contains_iff_mem.mp subtree)
  obtain ⟨before, gap⟩ := unit.contiguous id inside k encloses
  have kind := (unit.inclusion known).2
  have between : ∀ other : ItemId, (program.inclusion k).item < other → other ≤ id →
      program.isFileExpanded keepIncludes (program.item other).file = false := by
    intro other after upTo
    rw [Bool.eq_false_iff]
    intro shown
    -- An expanded item inside the header would make its directive expanded.
    rw [(gap other after upTo).expanded unit.nested (expanded_around shown)] at closed
    cases closed
  refine ⟨expanded, before.le, iff_of_false (Nat.ne_of_lt before) (by simp [hidden]),
    fun _ => ⟨k, kind, closed, subtree⟩, between, ?_⟩
  intro other shown apart
  refine ⟨fun less => less.trans before, fun less => ?_⟩
  by_contra notBefore
  have after := Nat.lt_of_le_of_ne (Nat.le_of_not_lt notBefore) apart.symm
  rw [between other after less.le] at shown
  cases shown

/-- The emission slot of an item of a unit stands for it: the item itself, or the outermost directive that hides it. -/
theorem emissionSlot_isSlot (files : FileSystem) (search : SearchPath) (path : String) (document : Document)
    (keepIncludes : Bool) {id : ItemId} (inside : id < (ofDocument files search path document).items.size) :
    (ofDocument files search path document).IsSlot keepIncludes
      ((ofDocument files search path document).emissionSlot keepIncludes id) id := by
  have unit := ofDocument_unrolled files search path document
  cases expanded : (ofDocument files search path document).isFileExpanded keepIncludes
      ((ofDocument files search path document).item id).file with
  | true =>
    rw [emissionSlot_of_expanded unit.nested expanded]
    exact .of_expanded expanded
  | false =>
    obtain ⟨k, known, slot, subtree, closed, host⟩ := emissionSlot_of_hidden unit inside expanded
    rw [slot]
    exact .of_hidden unit inside known expanded subtree closed host

/-- The variable in the inner header stands behind the directive of the outer one. -/
theorem emissionSlot_keptHeaders : Session.keptHeaders.program.emissionSlot true 2 = 0 ∧
    Session.keptHeaders.program.isFileExpanded true (Session.keptHeaders.program.item 2).file = false ∧
    Session.keptHeaders.program.IsSlot true 0 2 := by
  have facts : 2 < Session.keptHeaders.program.items.size ∧ Session.keptHeaders.program.emissionSlot true 2 = 0 ∧
      Session.keptHeaders.program.isFileExpanded true (Session.keptHeaders.program.item 2).file = false := by
    decide +kernel
  obtain ⟨inside, slot, hidden⟩ := facts
  have stands := emissionSlot_isSlot _ _ _ _ true inside
  exact ⟨slot, hidden, slot ▸ stands⟩

end Excerpt.Program
