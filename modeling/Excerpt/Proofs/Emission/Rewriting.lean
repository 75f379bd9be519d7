import Excerpt.Proofs.Emission.Presence

namespace Excerpt

def StmtKind.spelled? : StmtKind → Option DeclId
  | .declRef named true => some named
  | _ => none

namespace Program

/-- The names that are spelled in function bodies and initializers, each with what it means and its place. -/
def spelledUses (program : Program) : List (DeclId × Span) :=
  ((List.range program.decls.size).filterMap (Closure.editedBody? program)).flatMap fun body =>
    body.preorder.filterMap fun node => node.kind.spelled?.map (·, node.span)

/-- Spelled names are not empty, and no two of them overlap. -/
def UsesApart (program : Program) : Prop :=
  ∀ use ∈ program.spelledUses, use.2.start < use.2.stop ∧
    ∀ other ∈ program.spelledUses, use = other ∨ use.2.overlaps other.2 = false

instance (program : Program) : Decidable program.UsesApart :=
  inferInstanceAs (Decidable (∀ use ∈ program.spelledUses, _ ∧ ∀ other ∈ program.spelledUses, _))

variable {program : Program}

theorem exists_body_of_reached {id : DeclId} {body stmt : Stmt} (found : Closure.editedBody? program id = some body)
    (reached : Relation.ReflTransGen program.StmtStep body stmt) :
    ∃ host own, Closure.editedBody? program host = some own ∧ stmt ∈ own.preorder := by
  induction reached with
  | refl => exact ⟨id, body, found, body.self_mem_preorder⟩
  | @tail inner next _ step ih =>
    obtain ⟨host, own, hosted, member⟩ := ih
    rcases step with isChild | opened
    · have below := Stmt.mem_preorder.mpr (.inr ⟨next, isChild, next.self_mem_preorder⟩)
      exact ⟨host, own, hosted, Stmt.preorder_subset member next below⟩
    · obtain ⟨holder, type, -, -, kind⟩ := localInit?_eq_some opened
      exact ⟨holder, next, by simp only [Closure.editedBody?, kind], next.self_mem_preorder⟩

theorem lt_size_of_editedBody {id : Nat} {body : Stmt} (found : Closure.editedBody? program id = some body) :
    id < program.decls.size := by
  by_contra outside
  rw [Closure.editedBody?, decl_of_size_le (Nat.not_lt.mp outside)] at found
  cases found

theorem mem_spelledUses {id named : DeclId} {body stmt : Stmt} (found : Closure.editedBody? program id = some body)
    (reached : Relation.ReflTransGen program.StmtStep body stmt) (reference : stmt.kind = .declRef named true) :
    (named, stmt.span) ∈ program.spelledUses := by
  obtain ⟨host, own, hosted, member⟩ := exists_body_of_reached found reached
  refine List.mem_flatMap.mpr
    ⟨own, List.mem_filterMap.mpr ⟨host, ?_, hosted⟩, List.mem_filterMap.mpr ⟨stmt, member, ?_⟩⟩
  · exact List.mem_range.mpr (lt_size_of_editedBody hosted)
  · rw [reference]
    rfl

end Program

namespace Edit

/-- The output is the source, which starts at `cursor`, with each wanted edit from there on made once: the bytes of its
span give way to its text, and all bytes between the edits are copied. -/
inductive Rewrites (wanted : Edit → Prop) : Nat → List Char → List Char → Prop
  | copy {cursor : Nat} {text : List Char} (none : ∀ edit, wanted edit → edit.span.start < cursor) :
      Rewrites wanted cursor text text
  | replace {cursor : Nat} {edit : Edit} {before old behind output : List Char} (called : wanted edit)
      (place : cursor + Text.byteLength before = edit.span.start)
      (length : edit.span.start + Text.byteLength old = edit.span.stop)
      (next : ∀ other, wanted other → cursor ≤ other.span.start → other = edit ∨ edit.span.stop ≤ other.span.start)
      (rest : Rewrites wanted edit.span.stop behind output) :
      Rewrites wanted cursor (before ++ old ++ behind) (before ++ edit.text ++ output)

/-- The first edit ends where the second starts, or before. -/
def EndsBefore (first second : Edit) : Prop :=
  first.span.file < second.span.file ∨ first.span.file = second.span.file ∧ first.span.stop ≤ second.span.start

/-- Sorted edits that are equal or apart end before each other once the repetitions are gone. -/
theorem dropRepeats_pairwise {edits : List Edit} (filled : ∀ edit ∈ edits, edit.span.start < edit.span.stop)
    (ordered : edits.Pairwise fun first second => first = second ∨ first.EndsBefore second) :
    (dropRepeats edits).Pairwise EndsBefore := by
  fun_induction dropRepeats edits with
  | case1 second rest ih =>
    exact ih (fun edit member => filled edit (List.mem_cons_of_mem _ member)) ordered.of_cons
  | case2 first second rest different ih =>
    obtain ⟨firstFilled, restFilled⟩ := List.forall_mem_cons.mp filled
    obtain ⟨here, later⟩ := List.pairwise_cons.mp ordered
    refine List.pairwise_cons.mpr ⟨fun edit member => ?_, ih restFilled later⟩
    have listed := mem_dropRepeats.mp member
    refine (here edit listed).resolve_left fun same => ?_
    -- A repetition behind another edit would have to start both before and behind that one.
    subst same
    have after := (here second List.mem_cons_self).resolve_left different
    have before :=
      ((List.pairwise_cons.mp later).1 first ((List.mem_cons.mp listed).resolve_left different)).resolve_left
      (Ne.symm different)
    have secondFilled := restFilled second List.mem_cons_self
    rcases after with less | ⟨same, stops⟩
    · exact before.elim (Nat.lt_asymm less) fun equal => Nat.ne_of_lt less equal.1.symm
    · rcases before with less | ⟨-, starts⟩
      · exact Nat.ne_of_lt less same.symm
      · omega
  | case3 edits short =>
    rcases edits with _ | ⟨only, _ | ⟨second, rest⟩⟩
    · exact .nil
    · exact List.pairwise_singleton _ _
    · exact absurd rfl (short only second rest)

/-- By induction on the edits: between two of them the source is taken over, and none is lost. -/
theorem applyFrom_rewrites {program : Program} {span : Span} {wanted : Edit → Prop} {edits : List Edit} {cursor : Nat}
    (sound : ∀ edit ∈ edits, wanted edit) (complete : ∀ edit, wanted edit → cursor ≤ edit.span.start → edit ∈ edits)
    (inside : ∀ edit ∈ edits, cursor ≤ edit.span.start ∧ edit.span.start < edit.span.stop ∧ edit.span.stop ≤ span.stop)
    (cut : ∀ edit ∈ edits, Text.IsBoundary (program.file span.file).text edit.span.start ∧
      Text.IsBoundary (program.file span.file).text edit.span.stop)
    (apart : edits.Pairwise fun first second => first.span.stop ≤ second.span.start)
    (opens : Text.IsBoundary (program.file span.file).text cursor)
    (closes : Text.IsBoundary (program.file span.file).text span.stop) :
    Rewrites wanted cursor (program.text ⟨span.file, cursor, span.stop⟩) (applyFrom program span cursor edits) := by
  induction edits generalizing cursor with
  | nil =>
    refine .copy fun edit called => ?_
    by_contra behind
    exact absurd (complete edit called (Nat.not_lt.mp behind)) List.not_mem_nil
  | cons edit rest ih =>
    obtain ⟨⟨reached, filled, within⟩, insideRest⟩ := List.forall_mem_cons.mp inside
    obtain ⟨⟨first, last⟩, cutRest⟩ := List.forall_mem_cons.mp cut
    obtain ⟨before, apartRest⟩ := List.pairwise_cons.mp apart
    obtain ⟨called, soundRest⟩ := List.forall_mem_cons.mp sound
    have split : program.text ⟨span.file, cursor, span.stop⟩ = program.text ⟨span.file, cursor, edit.span.start⟩ ++
        program.text ⟨span.file, edit.span.start, edit.span.stop⟩ ++
        program.text ⟨span.file, edit.span.stop, span.stop⟩ := by
      simp only [Program.text]
      rw [Text.slice_append opens first closes reached (filled.le.trans within),
        Text.slice_append first last closes filled.le within, List.append_assoc]
    rw [applyFrom, if_neg (Nat.not_lt.mpr reached), split]
    refine .replace called ?_ ?_ (fun other wants behind => ?_) (ih soundRest (fun other wants behind => ?_)
      (fun other member => ⟨before other member, (insideRest other member).2⟩) cutRest apartRest last)
    · simp only [Program.text, Text.byteLength_slice opens first reached]
      omega
    · simp only [Program.text, Text.byteLength_slice first last filled.le]
      omega
    · exact (List.mem_cons.mp (complete other wants behind)).imp_right (before other)
    · refine (List.mem_cons.mp (complete other wants (by omega))).resolve_left fun same => ?_
      subst same
      omega

end Edit

namespace Closure

variable {closure : Closure} {program : Program} (apart : program.UsesApart)
include apart

theorem CallsFor.disjoint {id user : DeclId} {first second : Edit} (called : closure.CallsFor program id first)
    (other : closure.CallsFor program user second) :
    first.span.start < first.span.stop ∧ (first = second ∨ first.span.overlaps second.span = false) := by
  obtain ⟨found, reached, reference, pointer⟩ := called
  obtain ⟨otherFound, otherReached, otherReference, otherPointer⟩ := other
  obtain ⟨filled, others⟩ := apart _ (Program.mem_spelledUses found reached reference)
  refine ⟨filled, (others _ (Program.mem_spelledUses otherFound otherReached otherReference)).imp_left fun same => ?_⟩
  obtain ⟨named, span⟩ := Prod.mk.inj same
  rw [named, otherPointer] at pointer
  rw [span, Option.some.inj pointer]

/-- The edits of a chunk are collected from all its bodies. Where the uses of a unit lie apart, so do they. -/
theorem edits_endBefore (ordered : program.LocalsAscend) (ids : List DeclId) :
    (closure.edits program ids).Pairwise Edit.EndsBefore := by
  have called : ∀ edit, edit ∈ stableSort Edit.atOrBefore
      (((ids.filterMap (editedBody? program)).reverse.flatMap program.reverseNodes).filterMap
        (closure.nodeEdit? program)) →
      ∃ id ∈ ids, closure.CallsFor program id edit :=
    fun edit member => (mem_edits ordered).mp (Edit.mem_dropRepeats.mpr member)
  refine Edit.dropRepeats_pairwise (fun edit member => ?_)
    ((stableSort_pairwise Edit.atOrBefore_total Edit.atOrBefore_trans _).imp_of_mem
      fun {first second} member other order => ?_)
  · obtain ⟨id, -, calls⟩ := called edit member
    exact (calls.disjoint apart calls).1
  · obtain ⟨id, -, calls⟩ := called first member
    obtain ⟨user, -, uses⟩ := called second other
    refine (calls.disjoint apart uses).2.imp_right fun separate => ?_
    have filled := (uses.disjoint apart uses).1
    rw [← Bool.not_eq_true, Program.overlaps_iff] at separate
    rcases Edit.atOrBefore_iff.mp order with less | ⟨same, earlier⟩
    · exact .inl less
    · refine .inr ⟨same, ?_⟩
      by_contra reaches
      exact separate ⟨same, by omega, Nat.not_le.mp reaches⟩

end Closure

namespace Session

variable {session : Session} {closure : Closure} {kept : IdSet} {requested : List String} {item : ItemId}
  {chunk : Chunk}

/-- A use of a pointer in a declaration that an item prints as it is, inside the span. -/
def Calls (session : Session) (closure : Closure) (item : ItemId) (span : Span) (edit : Edit) : Prop :=
  (∃ id ∈ session.stays closure item, closure.CallsFor session.program id edit) ∧ edit.span.isWithin span = true

/-- What an item prints of a span is the text of the span with the uses of pointers replaced. -/
theorem applyAll_rewrites (sound : session.IsSound) (apart : session.program.UsesApart) {item : Nat}
    {members : List DeclId}
    (known : item < session.program.items.size) (kind : (session.program.item item).kind = .decls members) {span : Span}
    (file : span.file = (session.program.item item).file)
    (opens : Text.IsBoundary (session.program.file span.file).text span.start)
    (closes : Text.IsBoundary (session.program.file span.file).text span.stop) :
    Edit.Rewrites (session.Calls closure item span) span.start (session.program.text span)
      (Edit.applyAll session.program span (closure.edits session.program (session.stays closure item))) := by
  have ordered := sound.isRead.consistent.locals
  have mem_inside : ∀ {edit}, edit ∈ (closure.edits session.program (session.stays closure item)).filter
      (·.span.isWithin span) ↔ session.Calls closure item span edit := by
    intro edit
    rw [List.mem_filter, Closure.mem_edits ordered]
    rfl
  refine Edit.applyFrom_rewrites (fun edit => mem_inside.mp) (fun edit wants _ => mem_inside.mpr wants)
    (fun edit member => ?_) (fun edit member => ?_) ?_ opens closes
  · obtain ⟨⟨id, -, called⟩, within⟩ := mem_inside.mp member
    obtain ⟨-, start, stop⟩ := Program.isWithin_iff.mp within
    exact ⟨start, (called.disjoint apart called).1, stop⟩
  · rw [file]
    exact (edit_place sound.laid known kind ordered (List.mem_filter.mp member).1).1
  · refine ((Closure.edits_endBefore apart ordered _).filter _).imp_of_mem fun {first second} member other before => ?_
    have same : first.span.file = second.span.file :=
      (Program.isWithin_iff.mp (mem_inside.mp member).2).1.trans
        (Program.isWithin_iff.mp (mem_inside.mp other).2).1.symm
    exact before.elim (fun less => absurd same (Nat.ne_of_lt less)) (·.2)

theorem fileScope_of_renameFor (consistent : session.program.Consistent)
    (found : session.closure requested = .ok closure)
    {id : DeclId} {rename : Rename} (pointer : closure.renameFor? session.program id = some rename) :
    ∃ other ∈ session.program.redecls id, (session.program.decl other).isFileScope = true := by
  obtain ⟨lookup, chain⟩ := Closure.renameFor_eq_some.mp pointer
  obtain ⟨origin, marked, external, -, same⟩ :=
    exists_externalized consistent found (Closure.renameNamed_eq_some lookup).1
  refine ⟨origin, (consistent.chains _ origin).mpr ⟨closure_lt consistent found marked, same.symm.trans chain⟩, ?_⟩
  exact (isSymbol_of_rename (isExternalized_iff.mp external).2.2).1

section Chunks

variable (sound : session.IsSound) (apart : session.program.UsesApart) (member : chunk ∈ session.chunks closure kept)
include sound apart member

theorem whole_rewrites (origin : chunk.origin = .whole item) :
    Edit.Rewrites (session.Calls closure item (session.program.item item).span) (session.program.item item).span.start
      (session.program.text (session.program.item item).span) chunk.text := by
  have holds : chunk.origin.declItem? = some item := by rw [origin]; rfl
  obtain ⟨known, members, opens, -⟩ := opens_of_mem member holds
  have file : (session.program.item item).span.file = (session.program.item item).file :=
    congrArg Span.file (sound.laid.item_span known)
  obtain ⟨first, last⟩ := sound.laid.item_cut known
  rw [← file] at first last
  rw [text_eq_textOf member holds, origin]
  exact applyAll_rewrites sound apart known opens.kind file first last

/-- A selection is the specifiers as they stand, and each declarator that stays with its uses replaced. -/
theorem selection_rewrites (origin : chunk.origin = .selection item) : ∃ shown : DeclId → List Char,
    chunk.text = session.program.text (session.specifiers item) ++
      List.intercalate [',', ' '] ((session.stays closure item).map shown) ++ [';'] ∧
    ∀ id ∈ session.stays closure item, ∃ spans, (session.program.decl id).declarator = some spans ∧
      Edit.Rewrites (session.Calls closure item spans.full) spans.full.start (session.program.text spans.full)
        (shown id) := by
  have holds : chunk.origin.declItem? = some item := by rw [origin]; rfl
  obtain ⟨known, members, opens, -⟩ := opens_of_mem member holds
  let made := fun spans : DeclaratorSpans =>
    Edit.applyAll session.program spans.full (closure.edits session.program (session.stays closure item))
  have named : ∀ id ∈ session.stays closure item, ∃ spans, (session.program.decl id).declarator = some spans :=
    fun id stay => Option.isSome_iff_exists.mp (mem_stays.mp stay).2.1
  refine ⟨fun id => ((session.program.decl id).declarator.map made).getD [], ?_, fun id stay => ?_⟩
  · rw [text_eq_textOf member holds, origin, textOf, List.map_filterMap, ← List.filterMap_eq_map]
    congr 3
    refine List.filterMap_congr fun id stay => ?_
    obtain ⟨spans, declares⟩ := named id stay
    simp [declares, made]
  · obtain ⟨spans, declares⟩ := named id stay
    refine ⟨spans, declares, ?_⟩
    simp only [declares, Option.map_some, Option.getD_some]
    have listed := (mem_stays.mp stay).1
    rw [membersOf_eq opens.kind] at listed
    obtain ⟨inside, rfl, -⟩ := (sound.laid.mem_members known opens.kind).mp listed
    obtain ⟨own, full, bare, name, -, -, inOwn, -, -, rfl⟩ := sound.laid.declarator_place inside declares
    exact applyAll_rewrites sound apart known opens.kind rfl inOwn.opens inOwn.closes

end Chunks

/-- Where uses lie apart, a whole item is printed as its source text with each use of a pointer in what stays of it
replaced once, and so is each declarator of a selection. A use of what is declared only inside functions is not
touched. -/
theorem chunks_rewrite_exactly (sound : session.IsSound) (apart : session.program.UsesApart)
    (found : session.closure requested = .ok closure) (kept : IdSet) :
    (∀ chunk ∈ session.chunks closure kept, ∀ item, chunk.origin = .whole item →
      Edit.Rewrites (session.Calls closure item (session.program.item item).span) (session.program.item item).span.start
        (session.program.text (session.program.item item).span) chunk.text) ∧
    (∀ chunk ∈ session.chunks closure kept, ∀ item, chunk.origin = .selection item → ∃ shown : DeclId → List Char,
      chunk.text = session.program.text (session.specifiers item) ++
        List.intercalate [',', ' '] ((session.stays closure item).map shown) ++ [';'] ∧
      ∀ id ∈ session.stays closure item, ∃ spans, (session.program.decl id).declarator = some spans ∧
        Edit.Rewrites (session.Calls closure item spans.full) spans.full.start (session.program.text spans.full)
          (shown id)) ∧
    ∀ use ∈ session.program.spelledUses,
      (∀ other ∈ session.program.redecls use.1, (session.program.decl other).isFileScope = false) →
      ∀ id edit, closure.CallsFor session.program id edit → edit.span.overlaps use.2 = false := by
  refine ⟨fun chunk member item => whole_rewrites sound apart member,
    fun chunk member item => selection_rewrites sound apart member, fun use listed inner id edit called => ?_⟩
  obtain ⟨body, reached, reference, pointer⟩ := called
  refine ((apart _ (Program.mem_spelledUses body reached reference)).2 use listed).resolve_left fun same => ?_
  obtain ⟨other, known, outer⟩ := fileScope_of_renameFor sound.isRead.consistent found pointer
  rw [← same] at inner
  rw [inner other known] at outer
  cases outer

/-- A `static` function `g`, a function with a local variable that holds it, and one with a local variable of its
name. -/
def shadowedCall : Session :=
  ({} : Config).session (.ofDocument ⟨[], []⟩ ⟨[]⟩ "unit.c"
    (Written.document
      [("", .staticFunction "g" (.token "number_literal" "1")),
        ("\n", .function "f"
          (.blockValue "parenthesized_expression" (.initialized "l" (.token "value.identifier" "g")) (.reference "l"))),
        ("\n", .function "h" (.blockValue "parenthesized_expression" (.object "g") (.reference "g")))]))

set_option maxRecDepth 10000 in
/-- The use in the initializer is replaced, the use of the local variable is not. -/
theorem rewrites_shadowedCall : ∃ closure chunk, shadowedCall.closure ["f", "h"] = .ok closure ∧
    chunk ∈ shadowedCall.chunks closure [0, 1, 3] ∧
    chunk.text = "int f(void) \x7b return (\x7b int l = klp_g; l; \x7d); \x7d".toList ∧
    Edit.Rewrites (shadowedCall.Calls closure 1 (shadowedCall.program.item 1).span)
      (shadowedCall.program.item 1).span.start
      (shadowedCall.program.text (shadowedCall.program.item 1).span) chunk.text ∧
    (4, ⟨0, 108, 109⟩) ∈ shadowedCall.program.spelledUses ∧
    ∀ id edit, closure.CallsFor shadowedCall.program id edit → edit.span.overlaps ⟨0, 108, 109⟩ = false := by
  let closure : Closure :=
    { roots := [1, 3], decls := [0, 1, 3], macros := [], needsUndef := [], renames := [⟨"g", .function, 0⟩],
      passSizes := [3] }
  let chunk : Chunk := ⟨.whole 1, "int f(void) \x7b return (\x7b int l = klp_g; l; \x7d); \x7d".toList⟩
  have sound : shadowedCall.IsSound := isSound_ofDocument _ (by decide +kernel)
  have facts : shadowedCall.closure ["f", "h"] = .ok closure ∧ chunk ∈ shadowedCall.chunks closure [0, 1, 3] ∧
      shadowedCall.program.UsesApart ∧ (4, ⟨0, 108, 109⟩) ∈ shadowedCall.program.spelledUses ∧
      ∀ other ∈ shadowedCall.program.redecls 4, (shadowedCall.program.decl other).isFileScope = false := by
    decide +kernel
  obtain ⟨found, member, apart, spelled, inner⟩ := facts
  obtain ⟨whole, -, untouched⟩ := chunks_rewrite_exactly sound apart found [0, 1, 3]
  exact ⟨closure, chunk, found, member, rfl, whole chunk member 1 rfl, spelled, untouched _ spelled inner⟩

end Session

end Excerpt
