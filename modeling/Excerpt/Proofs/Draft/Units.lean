import Excerpt.Config.Basic
import Excerpt.Proofs.Closure.Rules
import Excerpt.Proofs.Draft.Expansion
import Excerpt.Proofs.Draft.ItemLayout
import Excerpt.Proofs.Program.Outermost
import Excerpt.Proofs.Surface.Tidy

/-!
What holds of a whole unit. Each declaration lies in the item that holds it, and an item lists its declarations at file
scope.
-/

namespace Excerpt

/-- The tree is tidy, and no top-level construct is empty. -/
def Document.isSound (document : Document) : Bool :=
  document.tree.isTidy document.text &&
    (Surface.itemsOf document.text document.tree).all fun item => item.extent.start < item.extent.stop

def Nesting.sound : Nesting where
  inside := Extent.Inside
  isNesting := Extent.inside_isNesting
  Admits document := document.isSound = true
  nests _ sound := Node.nests_of_isTidy (Bool.and_eq_true_iff.mp sound).1

theorem rel_of_ascending {rel : Nat → Nat → Prop} {ids : List Nat} (ascending : ids.Pairwise (· < ·))
    (related : ids.Pairwise rel) {i j : Nat} (first : i ∈ ids) (second : j ∈ ids) (less : i < j) : rel i j := by
  induction ids with
  | nil => cases first
  | cons head rest ih =>
    rw [List.pairwise_cons] at ascending related
    rcases List.mem_cons.mp first with rfl | inRest
    · rcases List.mem_cons.mp second with same | later
      · exact absurd less (same ▸ Nat.lt_irrefl i)
      · exact related.1 j later
    · rcases List.mem_cons.mp second with rfl | later
      · exact absurd less (Nat.lt_asymm (ascending.1 i inRest))
      · exact ih ascending.2 related.2 inRest later

theorem Stmt.preorder_subset {body stmt : Stmt} (member : stmt ∈ body.preorder) :
    ∀ inner ∈ stmt.preorder, inner ∈ body.preorder := by
  have chain := Stmt.reaches_of_mem_preorder member
  clear member
  induction chain using Relation.ReflTransGen.head_induction_on with
  | refl => exact fun inner below => below
  | head isChild _ ih => exact fun inner below => Stmt.mem_preorder.mpr (.inr ⟨_, isChild, ih inner below⟩)

namespace Program

def siteOf (program : Program) (nesting : Nesting) (id : ItemId) : Site :=
  nesting.site (program.file (program.item id).file).text (program.item id).file id

section Laid

variable {nesting : Nesting} {program : Program} (laid : program.Laid nesting) {decl : Nat}
include laid

theorem Laid.holds (known : decl < program.decls.size) :
    (program.decl decl).item < program.items.size ∧
      ∃ first limit, program.ItemLaid nesting (program.decl decl).item first limit ∧ first ≤ decl ∧ decl < limit := by
  obtain ⟨id, first, limit, inside, own, since, below⟩ := laid.decls decl known
  obtain ⟨function, sits, -⟩ := own.sits decl since below
  have same : (program.decl decl).item = id := sits.item
  rw [same]
  exact ⟨inside, first, limit, own, since, below⟩

theorem Laid.mem_members {id : Nat} {members : List DeclId} (known : id < program.items.size)
    (kind : (program.item id).kind = .decls members) :
    decl ∈ members ↔ decl < program.decls.size ∧ (program.decl decl).item = id ∧
      (program.decl decl).context = none := by
  constructor
  · intro member
    obtain ⟨first, limit, own⟩ := laid.items id known
    rw [((own.members members).mp kind).2] at member
    simp only [List.mem_filter, List.mem_range, Bool.and_eq_true, decide_eq_true_eq, beq_iff_eq] at member
    obtain ⟨below, since, outer⟩ := member
    obtain ⟨function, sits, -⟩ := own.sits decl since below
    exact ⟨Nat.lt_of_lt_of_le below own.size, sits.item, outer⟩
  · intro facts
    obtain ⟨inside, same, outer⟩ := facts
    obtain ⟨-, first, limit, own, since, below⟩ := laid.holds inside
    rw [same] at own
    rw [((own.members members).mp kind).2]
    simp [below, since, outer]

theorem Laid.members_ascending {id : Nat} {members : List DeclId} (known : id < program.items.size)
    (kind : (program.item id).kind = .decls members) : members.Pairwise (· < ·) := by
  obtain ⟨first, limit, own⟩ := laid.items id known
  rw [((own.members members).mp kind).2]
  exact List.pairwise_lt_range.filter _

variable (known : decl < program.decls.size)
include known

theorem Laid.seq : (program.decl decl).pos.seq = (program.decl decl).item := by
  obtain ⟨-, first, limit, own, since, below⟩ := laid.holds known
  obtain ⟨function, sits, -⟩ := own.sits decl since below
  exact sits.seq

theorem Laid.place :
    ∃ own, nesting.inside (program.file (program.item (program.decl decl).item).file).text own
        (program.item (program.decl decl).item).extent ∧
      (program.decl decl).LiesIn (program.siteOf nesting (program.decl decl).item) program own := by
  obtain ⟨-, first, limit, own, since, below⟩ := laid.holds known
  obtain ⟨function, sits, -⟩ := own.sits decl since below
  exact sits.place

theorem Laid.declarator (outer : (program.decl decl).context = none)
    (sort : (program.decl decl).kind.sort = .symbol ∨ (program.decl decl).kind.sort = .typeName) :
    ∃ spans, (program.decl decl).declarator = some spans := by
  obtain ⟨-, first, limit, own, since, below⟩ := laid.holds known
  obtain ⟨function, sits, -⟩ := own.sits decl since below
  exact Option.isSome_iff_exists.mp (sits.declarator outer sort)

theorem Laid.linked : program.Linked decl := by
  obtain ⟨-, first, limit, own, since, below⟩ := laid.holds known
  exact own.linked decl since below

theorem Laid.exists_members (outer : (program.decl decl).context = none) :
    ∃ members, (program.item (program.decl decl).item).kind = .decls members ∧ decl ∈ members := by
  obtain ⟨-, first, limit, own, since, below⟩ := laid.holds known
  have member : decl ∈ (List.range limit).filter fun decl => first ≤ decl && (program.decl decl).context == none := by
    simp [below, since, outer]
  exact ⟨_, (own.members _).mpr ⟨List.ne_nil_of_mem member, rfl⟩, member⟩

theorem Laid.reference {body node : Stmt}
    (found : (program.decl decl).kind.body? = some body) (member : node ∈ body.preorder)
    {named : Nat} {spelled : Bool} (reference : node.kind = .declRef named spelled) :
    named < program.decls.size ∧ (program.decl named).item ≤ (program.decl decl).item := by
  obtain ⟨-, first, limit, own, since, below⟩ := laid.holds known
  have inside : named < limit := own.refers decl since below body found node member named spelled reference
  have size := own.size
  refine ⟨Nat.lt_of_lt_of_le inside size, ?_⟩
  obtain ⟨function, sits, -⟩ := own.sits (limit - 1) (by omega) (by omega)
  have last : (program.decl (limit - 1)).item = (program.decl decl).item := sits.item
  rw [← last]
  exact laid.ascends named (limit - 1) (by omega) (by omega)

/-- What the body of a declaration reaches lies where the body does, and is a node in a body of the same item. -/
theorem Laid.reached {body stmt : Stmt} {outer : Extent}
    (found : (program.decl decl).kind.body? = some body)
    (lies : body.Lies (program.siteOf nesting (program.decl decl).item) program outer)
    (chain : Relation.ReflTransGen program.StmtStep body stmt) :
    stmt.Lies (program.siteOf nesting (program.decl decl).item) program outer ∧
      ∃ host : Nat, host < program.decls.size ∧ (program.decl host).item = (program.decl decl).item ∧
        ∃ own, (program.decl host).kind.body? = some own ∧ stmt ∈ own.preorder := by
  induction chain with
  | refl => exact ⟨lies, decl, known, rfl, body, found, body.self_mem_preorder⟩
  | @tail inner next _ step ih =>
    obtain ⟨innerLies, host, inside, same, own, hosted, member⟩ := ih
    rcases step with isChild | opened
    · have below : ∀ node ∈ next.preorder, node ∈ inner.preorder :=
        fun node listed => Stmt.mem_preorder.mpr (.inr ⟨next, isChild, listed⟩)
      refine ⟨fun node listed => innerLies node (below node listed), host, inside, same, own, hosted, ?_⟩
      exact Stmt.preorder_subset member next (below next next.self_mem_preorder)
    · obtain ⟨id, type, declares, declared, kind⟩ := localInit?_eq_some opened
      obtain ⟨extent, within, -, facts, -⟩ := innerLies inner inner.self_mem_preorder
      rw [declares] at facts
      obtain ⟨-, item, place, inExtent, span⟩ := facts
      have placed : (program.decl id).item = (program.decl decl).item := item
      have body : (program.decl id).kind.body? = some next := by rw [kind]; rfl
      refine ⟨?_, id, declared, placed, next, body, next.self_mem_preorder⟩
      -- The variable has one span, so its initializer lies where the node that declares it does.
      obtain ⟨ownPlace, -, ownLies⟩ := laid.place declared
      rw [placed] at ownLies
      obtain rfl : ownPlace = place := Extent.eq_of_inFile (ownLies.span.symm.trans span)
      have site := (program.siteOf nesting (program.decl decl).item).nesting
      exact (ownLies.body next body).widen (site.trans inExtent within)

theorem Laid.reached_reference {body stmt : Stmt}
    (found : (program.decl decl).kind.body? = some body)
    (chain : Relation.ReflTransGen program.StmtStep body stmt) {named : Nat} {spelled : Bool}
    (reference : stmt.kind = .declRef named spelled) :
    named < program.decls.size ∧ (program.decl named).item ≤ (program.decl decl).item := by
  obtain ⟨own, -, lies⟩ := laid.place known
  obtain ⟨-, host, inside, same, hostBody, hosted, member⟩ := laid.reached known found (lies.body body found) chain
  rw [← same]
  exact laid.reference inside hosted member reference

end Laid

section Sound

variable {program : Program} (sound : program.Laid .sound)
include sound

theorem Laid.extents_apart {file : Nat} (known : file < program.files.size) :
    (program.extentsOf file).Pairwise (fun first second => first.stop ≤ second.start) ∧
      ∀ extent ∈ program.extentsOf file, extent.start < extent.stop := by
  obtain ⟨document, admitted, -, extents⟩ := sound.documents file known
  obtain ⟨tidy, filled⟩ := Bool.and_eq_true_iff.mp admitted
  rw [extents]
  constructor
  · exact List.pairwise_map.mpr (Surface.itemsOf_pairwise tidy)
  · intro extent member
    obtain ⟨item, listed, rfl⟩ := List.mem_map.mp member
    exact of_decide_eq_true (List.all_eq_true.mp filled item listed)

theorem Laid.item_filled {id : Nat} (known : id < program.items.size) :
    (program.item id).extent.start < (program.item id).extent.stop := by
  obtain ⟨first, limit, own⟩ := sound.items id known
  apply (sound.extents_apart own.file).2
  rw [extentsOf]
  exact List.mem_map.mpr ⟨id, by simp [known], rfl⟩

theorem Laid.items_apart {first second : Nat} (less : first < second) (known : second < program.items.size)
    (same : (program.item first).file = (program.item second).file) :
    (program.item first).extent.stop ≤ (program.item second).extent.start := by
  obtain ⟨_, _, own⟩ := sound.items second known
  have apart := (sound.extents_apart own.file).1
  rw [extentsOf, List.pairwise_map] at apart
  have ascending : ((List.range program.items.size).filter fun id =>
      (program.item id).file == (program.item second).file).Pairwise (· < ·) := List.pairwise_lt_range.filter _
  exact rel_of_ascending ascending apart (by simp [less.trans known, same]) (by simp [known]) less

/-- The items of a file lie apart, so a span that is not empty lies in one item only. -/
theorem Laid.item_unique {first second : Nat} {span : Span} (filled : span.start < span.stop)
    (firstKnown : first < program.items.size) (secondKnown : second < program.items.size)
    (inFirst : span.isWithin (program.item first).span = true)
    (inSecond : span.isWithin (program.item second).span = true) :
    first = second := by
  obtain ⟨_, _, own⟩ := sound.items first firstKnown
  obtain ⟨_, _, other⟩ := sound.items second secondKnown
  rw [own.span] at inFirst
  rw [other.span] at inSecond
  obtain ⟨firstFile, firstStart, firstStop⟩ := isWithin_iff.mp inFirst
  obtain ⟨secondFile, secondStart, secondStop⟩ := isWithin_iff.mp inSecond
  have same : (program.item first).file = (program.item second).file := firstFile.symm.trans secondFile
  change (program.item first).extent.start ≤ span.start at firstStart
  change span.stop ≤ (program.item first).extent.stop at firstStop
  change (program.item second).extent.start ≤ span.start at secondStart
  change span.stop ≤ (program.item second).extent.stop at secondStop
  rcases Nat.lt_trichotomy first second with less | rfl | less
  · have apart := sound.items_apart less secondKnown same
    omega
  · rfl
  · have apart := sound.items_apart less firstKnown same.symm
    omega

theorem Laid.item_span {id : Nat} (known : id < program.items.size) :
    (program.item id).span = (program.item id).extent.inFile (program.item id).file := by
  obtain ⟨_, _, own⟩ := sound.items id known
  exact own.span

theorem Laid.item_cut {id : Nat} (known : id < program.items.size) :
    Text.IsBoundary (program.file (program.item id).file).text (program.item id).span.start ∧
      Text.IsBoundary (program.file (program.item id).file).text (program.item id).span.stop := by
  obtain ⟨_, _, own⟩ := sound.items id known
  exact ⟨own.whole.opens, own.whole.closes⟩

theorem Laid.declarator_place {decl : Nat} (known : decl < program.decls.size) {spans : DeclaratorSpans}
    (named : (program.decl decl).declarator = some spans) : ∃ own full bare name : Extent,
      Extent.Inside (program.file (program.item (program.decl decl).item).file).text own
        (program.item (program.decl decl).item).extent ∧
      (program.decl decl).span = own.inFile (program.item (program.decl decl).item).file ∧
      Extent.Inside (program.file (program.item (program.decl decl).item).file).text full own ∧
      Extent.Inside (program.file (program.item (program.decl decl).item).file).text bare full ∧
      Extent.Inside (program.file (program.item (program.decl decl).item).file).text name bare ∧
      spans = ⟨full.inFile (program.item (program.decl decl).item).file,
        bare.inFile (program.item (program.decl decl).item).file,
        name.inFile (program.item (program.decl decl).item).file⟩ := by
  obtain ⟨own, within, lies⟩ := sound.place known
  obtain ⟨full, bare, name, lie, -⟩ := lies.declarator spans named
  exact ⟨own, full, bare, name, within, lies.span, lie.fullInside, lie.bareInside, lie.nameInside, lie.parts⟩

theorem Laid.declarator_within {decl : Nat} (known : decl < program.decls.size) {spans : DeclaratorSpans}
    (named : (program.decl decl).declarator = some spans) :
    spans.full.isWithin (program.item (program.decl decl).item).span = true ∧
      spans.bare.isWithin (program.item (program.decl decl).item).span = true ∧ spans.full.start ≤ spans.full.stop := by
  obtain ⟨own, full, bare, name, inItem, -, inOwn, inFull, -, rfl⟩ := sound.declarator_place known named
  have host := sound.item_span (sound.holds known).1
  rw [isWithin_iff, isWithin_iff, host]
  exact ⟨⟨rfl, inItem.start.trans inOwn.start, inOwn.stop.trans inItem.stop⟩,
    ⟨rfl, inItem.start.trans (inOwn.start.trans inFull.start), inFull.stop.trans (inOwn.stop.trans inItem.stop)⟩,
    inOwn.proper⟩

theorem Laid.span_within {decl : Nat} (known : decl < program.decls.size) :
    (program.decl decl).span.isWithin (program.item (program.decl decl).item).span = true ∧
      (program.decl decl).span.start ≤ (program.decl decl).span.stop := by
  obtain ⟨own, within, lies⟩ := sound.place known
  have span : (program.decl decl).span = own.inFile (program.item (program.decl decl).item).file := lies.span
  rw [isWithin_iff, span, sound.item_span (sound.holds known).1]
  exact ⟨⟨rfl, within.start, within.stop⟩, within.proper⟩

end Sound

end Program

namespace Session

def IsSound (session : Session) : Prop :=
  ∃ files search path document, FileSystem.Admitted .sound files ∧ document.isSound = true ∧
    session.program = Program.ofDocument files search path document

theorem isSound_ofDocument (config : Config) {search : SearchPath} {path : String} {document : Document}
    (sound : document.isSound = true) : (config.session (.ofDocument ⟨[], []⟩ search path document)).IsSound :=
  ⟨⟨[], []⟩, search, path, document, fun _ _ none => absurd none List.not_mem_nil, sound, rfl⟩

variable {session : Session} (sound : session.IsSound)
include sound

theorem IsSound.isRead : session.IsRead := by
  obtain ⟨files, search, path, document, -, -, same⟩ := sound
  exact ⟨files, search, path, document, same⟩

theorem IsSound.laid : session.program.Laid .sound := by
  obtain ⟨files, search, path, document, admitted, admits, same⟩ := sound
  rw [same]
  exact Program.ofDocument_laid admitted search path admits

theorem IsSound.expanded {file : Nat} (known : file < session.program.files.size) :
    session.program.isFileExpanded false file = true := by
  obtain ⟨files, search, path, document, -, -, same⟩ := sound
  rw [same] at known ⊢
  exact Program.ofDocument_isFileExpanded files search path document known

end Session

end Excerpt
