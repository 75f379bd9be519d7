import Excerpt.Proofs.Draft.Tracing

/-!
Which declarations each item of a unit holds, and where they lie.
-/

namespace Excerpt

/-- For each text, what it means for an extent to lie inside another, and documents whose trees nest that way. -/
structure Nesting where
  inside : List Char → Extent → Extent → Prop
  isNesting : ∀ source, Extent.IsNesting (inside source)
  Admits : Document → Prop
  nests : ∀ document, Admits document → document.tree.Nests (inside document.text)

def Nesting.free : Nesting where
  inside _ _ _ := True
  isNesting _ := ⟨fun _ => trivial, fun _ _ => trivial⟩
  Admits _ := True
  nests document _ := Node.nests_of_forall (fun _ _ => trivial) document.tree

def Nesting.site (nesting : Nesting) (text : List Char) (file : FileId) (item : ItemId) : Site :=
  ⟨nesting.inside text, nesting.isNesting text, file, item⟩

def FileSystem.Admitted (nesting : Nesting) (files : FileSystem) : Prop :=
  ∀ place document, (place, FileContent.document document) ∈ files.files → nesting.Admits document

def Item.extent (item : Item) : Extent :=
  ⟨item.span.start, item.span.stop⟩

namespace Program

def extentsOf (program : Program) (file : FileId) : List Extent :=
  ((List.range program.items.size).filter fun id => (program.item id).file == file).map fun id =>
    (program.item id).extent

structure ItemLaid (nesting : Nesting) (program : Program) (id : ItemId) (first limit : Nat) : Prop where
  file : (program.item id).file < program.files.size
  span : (program.item id).span = (program.item id).extent.inFile (program.item id).file
  whole : nesting.inside (program.file (program.item id).file).text (program.item id).extent (program.item id).extent
  size : limit ≤ program.decls.size
  sits : ∀ decl : Nat, first ≤ decl → decl < limit → ∃ function,
    (program.decl decl).Sits (nesting.site (program.file (program.item id).file).text (program.item id).file id) program
        (program.item id).extent function ∧
      ∀ outer, function = some outer → first ≤ outer ∧ outer < decl ∧ (program.decl outer).kind.isFunction = true
  linked : ∀ decl : Nat, first ≤ decl → decl < limit → program.Linked decl
  refers : ∀ decl : Nat, first ≤ decl → decl < limit → ∀ body, (program.decl decl).kind.body? = some body →
    ∀ node ∈ body.preorder, ∀ named spelled, node.kind = .declRef named spelled → named < limit
  members : ∀ members, (program.item id).kind = .decls members ↔ members ≠ [] ∧
    members = (List.range limit).filter fun decl => first ≤ decl && (program.decl decl).context == none

/-- A unit: its items hold its declarations in order, and those of a file are the top-level constructs of a document. -/
structure Laid (nesting : Nesting) (program : Program) : Prop where
  items : ∀ id : Nat, id < program.items.size → ∃ first limit, program.ItemLaid nesting id first limit
  decls : ∀ decl : Nat, decl < program.decls.size → ∃ id first limit, id < program.items.size ∧
    program.ItemLaid nesting id first limit ∧ first ≤ decl ∧ decl < limit
  ascends : ∀ early late : Nat, early ≤ late → late < program.decls.size →
    (program.decl early).item ≤ (program.decl late).item
  order : ∀ early late : Nat, early < late → late < program.decls.size →
    (program.decl early).item = (program.decl late).item → (program.decl early).context ≠ none →
    (program.decl late).context = none → (program.decl late).kind.IsForward
  documents : ∀ file : Nat, file < program.files.size → ∃ document, nesting.Admits document ∧
    (program.file file).text = document.text ∧
      program.extentsOf file = (Surface.itemsOf document.text document.tree).map (·.extent)

section Opened

variable {nesting : Nesting} {program : Program} {openings : List Opening}
  (opened : program.Opened nesting.Admits openings) {opening : Opening} (member : opening ∈ openings)
include opened member

theorem Opened.placed : opening.item.Placed (nesting.inside opening.document.text) Surface.AnyName :=
  Surface.itemsOf_placed (nesting.isNesting _) (fun _ => trivial) (nesting.nests _ (opened.documents opening member))
    opening.item (opened.sound opening member).listed

omit member in
theorem Opened.extent (member : opening ∈ openings) :
    (program.item opening.draft.item).extent = opening.item.extent := by
  rw [Item.extent, (opened.lasts opening member).span, (opened.sound opening member).span]
  rfl

/-- The declarations of an item follow one another in the table and lie in the item. -/
theorem Opened.itemLaid : program.ItemLaid nesting opening.draft.item opening.draft.program.decls.size
    opening.after.program.decls.size := by
  have sound := opened.sound opening member
  have lasts := opened.lasts opening member
  have placed := opened.placed member
  have coded := sound.coded (nesting.isNesting opening.document.text) placed
  have extent := opened.extent member
  have text : (program.file (program.item opening.draft.item).file).text = opening.document.text := by
    rw [lasts.file, lasts.files _ sound.file, sound.text]
  have retains : opening.after.program.Retains program := ⟨lasts.size, fun id old => ⟨_, rfl, lasts.decls id old⟩⟩
  rw [← opening.start_decls]
  refine ⟨?_, ?_, ?_, lasts.size, fun decl since below => ?_, fun decl since below => ?_, ?_, fun members => ?_⟩
  · rw [lasts.file]
    exact sound.file.trans_le lasts.fileCount
  · rw [extent, lasts.span, lasts.file, sound.span]
  · rw [text, extent]
    exact placed.1
  · obtain ⟨function, sits, outer⟩ := coded.sits decl since below
    rw [text, lasts.file, extent, lasts.decls decl below]
    refine ⟨function, sits.mono retains, fun owner found => ?_⟩
    obtain ⟨after, before, kind⟩ := outer owner found
    rw [lasts.decls owner (before.trans below)]
    exact ⟨after, before, kind⟩
  · exact (coded.linked decl since below).mono retains below
  · intro decl since below body found node inner named spelled reference
    rw [lasts.decls decl below] at found
    obtain ⟨function, sits, -⟩ := coded.sits decl since below
    obtain ⟨own, -, lies⟩ := sits.place
    obtain ⟨extent, -, -, known, -⟩ := lies.body body found node inner
    rw [reference] at known
    exact known
  · rw [lasts.kind.members members, Draft.declaredSince, coded.function, opening.start_decls]
    refine and_congr_right fun _ => ?_
    rw [List.filter_congr fun decl inside => ?_]
    rw [lasts.decls decl (List.mem_range.mp inside)]

omit member

theorem Opened.decls_le {first second : Opening} (member : first ∈ openings) (other : second ∈ openings)
    (less : first.draft.item < second.draft.item) :
    first.after.program.decls.size ≤ second.draft.program.decls.size := by
  obtain ⟨front, back, rfl⟩ := List.append_of_mem member
  obtain ⟨-, behind, apart⟩ := List.pairwise_append.mp opened.ordered
  rcases List.mem_append.mp other with early | late
  · exact absurd (apart second early first List.mem_cons_self).1 less.not_gt
  · rcases List.mem_cons.mp late with rfl | late
    · exact absurd less (Nat.lt_irrefl _)
    · exact ((List.pairwise_cons.mp behind).1 second late).2

theorem Opened.extentsOf_eq (file : FileId) :
    program.extentsOf file = (Opening.itemsIn openings file).map (·.2.extent) := by
  rw [extentsOf, ← opened.items_eq_range, List.filter_map, List.map_map, Opening.itemsIn, List.map_map]
  rw [List.filter_congr fun opening member => ?_]
  · refine List.map_congr_left fun opening member => ?_
    exact opened.extent (List.mem_of_mem_filter member)
  · simp only [Function.comp_apply, (opened.lasts opening member).file]

/-- The layout is read off the items as they were entered, since what an item added is found unchanged in the unit. -/
theorem Opened.laid : program.Laid nesting where
  items id known := by
    obtain ⟨opening, member, rfl⟩ := opened.items id known
    exact ⟨_, _, opened.itemLaid member⟩
  decls decl known := by
    obtain ⟨opening, member, since, below⟩ := opened.decls decl known
    exact ⟨_, _, _, (opened.lasts opening member).inside, opened.itemLaid member, since, below⟩
  ascends early late less known := by
    obtain ⟨first, member, item, since, -, -⟩ := opened.exists_opening (less.trans_lt known)
    obtain ⟨second, other, laterItem, -, below, -⟩ := opened.exists_opening known
    rw [← item, ← laterItem]
    by_contra before
    have apart := opened.decls_le other member (Nat.not_le.mp before)
    rw [first.start_decls] at since
    omega
  order early late less known same := by
    obtain ⟨first, member, item, since, -, -⟩ := opened.exists_opening (less.trans known)
    obtain ⟨second, other, laterItem, -, below, -⟩ := opened.exists_opening known
    obtain rfl := opened.eq_of_item member other (item.trans (same.trans laterItem.symm))
    rw [(opened.lasts first member).decls early (less.trans below), (opened.lasts first member).decls late below]
    exact ((opened.sound first member).coded (nesting.isNesting _) (opened.placed member)).order early late since
      less below
  documents file known := by
    obtain ⟨document, admitted, text, items⟩ := opened.headers file known
    refine ⟨document, admitted, text, ?_⟩
    rw [opened.extentsOf_eq, items, List.map_map]
    rfl

end Opened

theorem ofDocument_laid {nesting : Nesting} {files : FileSystem} (admitted : files.Admitted nesting)
    (search : SearchPath) (path : String) {document : Document} (admits : nesting.Admits document) :
    (Program.ofDocument files search path document).Laid nesting :=
  (openingsOf_opened admitted search path admits).laid

end Program

end Excerpt
