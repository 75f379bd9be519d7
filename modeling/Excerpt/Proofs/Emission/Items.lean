import Excerpt.Proofs.Emission.References

/-!
The chunks of one item among those of the unit. The chains whose pointer was printed are carried along.
-/

namespace Excerpt

namespace ChunkOrigin

def item : ChunkOrigin → ItemId
  | .undef _ item => item
  | .inclusion _ item => item
  | .directive _ item => item
  | .pointer _ item => item
  | .whole item => item
  | .selection item => item
  | .tags item => item

def chain? (program : Program) : ChunkOrigin → Option ChainId
  | .pointer id _ => some (program.decl id).chain
  | _ => none

theorem item_of_declItem {origin : ChunkOrigin} {id : ItemId} (holds : origin.declItem? = some id) :
    origin.item = id := by
  cases origin <;> cases holds <;> rfl

end ChunkOrigin

def pointerChains (program : Program) (chunks : List Chunk) : List ChainId :=
  chunks.filterMap fun chunk => chunk.origin.chain? program

namespace Session

/-- The declarations of an item are looked at. -/
structure Opens (session : Session) (kept : IdSet) (item : ItemId) (members : List DeclId) : Prop where
  expanded : session.program.isFileExpanded session.keepIncludes (session.program.item item).file = true
  kind : (session.program.item item).kind = .decls members
  shown : members.any kept.contains = true

def doneFrom (session : Session) (closure : Closure) (kept : IdSet) (done : List ChainId) (items : List ItemId) :
    List ChainId :=
  items.foldl (fun done item => (session.itemChunks closure kept done item).2) done

/-- The chains whose pointer has been printed before an item. -/
def doneBefore (session : Session) (closure : Closure) (kept : IdSet) (item : Nat) : List ChainId :=
  session.doneFrom closure kept [] (List.range item)

def marked (session : Session) (closure : Closure) (members : List DeclId) : List DeclId :=
  (session.declarators members).filter closure.decls.contains

variable {session : Session} {closure : Closure} {kept : IdSet} {done : List ChainId} {item : ItemId} {chunk : Chunk}
  {members : List DeclId}

theorem mem_marked {id : DeclId} : id ∈ session.marked closure members ↔
    id ∈ members ∧ (session.program.decl id).declarator.isSome = true ∧ id ∈ closure.decls := by
  simp only [marked, declarators, List.mem_filter, List.contains_iff_mem, and_assoc]

/-- An item is looked at when its file is expanded and one of its declarations is outermost. Otherwise it prints no
declaration. -/
theorem itemChunks_cases (session : Session) (closure : Closure) (kept : IdSet) (done : List ChainId) (item : ItemId) :
    (∃ members, session.Opens kept item members ∧ session.itemChunks closure kept done item =
      (session.undefChunks closure item ++ (session.declChunks closure done item members).1,
        (session.declChunks closure done item members).2)) ∨
    (∀ members, ¬session.Opens kept item members) ∧ (session.itemChunks closure kept done item).2 = done ∧
      ∀ chunk ∈ (session.itemChunks closure kept done item).1, chunk.origin.declItem? = none := by
  have removals : ∀ chunk ∈ session.undefChunks closure item, chunk.origin.declItem? = none := by
    intro chunk member
    obtain ⟨name, -, rfl⟩ := List.mem_map.mp member
    rfl
  have single : ∀ {tail : Chunk}, tail.origin.declItem? = none →
      ∀ chunk ∈ session.undefChunks closure item ++ [tail], chunk.origin.declItem? = none := by
    intro tail plain chunk member
    rcases List.mem_append.mp member with removal | only
    · exact removals chunk removal
    · exact List.mem_singleton.mp only ▸ plain
  unfold itemChunks
  dsimp only
  by_cases expanded : session.program.isFileExpanded session.keepIncludes (session.program.item item).file = true
  · rw [if_pos expanded]
    cases kind : (session.program.item item).kind with
    | decls members =>
      dsimp only
      by_cases shown : members.any kept.contains = true
      · rw [if_pos shown]
        exact .inl ⟨members, ⟨expanded, kind, shown⟩, rfl⟩
      · rw [if_neg shown]
        refine .inr ⟨fun others opens => ?_, rfl, removals⟩
        obtain rfl : members = others := ItemKind.decls.inj (kind.symm.trans opens.kind)
        exact shown opens.shown
    | inclusion id =>
      refine .inr ⟨fun others opens => by simpa [kind] using opens.kind, ?_⟩
      dsimp only
      split_ifs
      · exact ⟨rfl, single rfl⟩
      · exact ⟨rfl, removals⟩
    | directive id =>
      refine .inr ⟨fun others opens => by simpa [kind] using opens.kind, ?_⟩
      dsimp only
      split_ifs
      · exact ⟨rfl, single rfl⟩
      · exact ⟨rfl, removals⟩
    | other => exact .inr ⟨fun others opens => by simpa [kind] using opens.kind, rfl, removals⟩
  · rw [if_neg expanded]
    exact .inr ⟨fun others opens => expanded opens.expanded, rfl, removals⟩

theorem Opens.itemChunks_eq (opens : session.Opens kept item members) (done : List ChainId) :
    session.itemChunks closure kept done item =
      (session.undefChunks closure item ++ (session.declChunks closure done item members).1,
        (session.declChunks closure done item members).2) := by
  rcases session.itemChunks_cases closure kept done item with ⟨others, other, shape⟩ | ⟨closed, -⟩
  · obtain rfl : others = members := ItemKind.decls.inj (other.kind.symm.trans opens.kind)
    exact shape
  · exact absurd opens (closed members)

theorem item_of_mem_itemChunks (member : chunk ∈ (session.itemChunks closure kept done item).1) :
    chunk.origin.item = item := by
  obtain ⟨tail, shape, form⟩ := session.itemChunks_eq closure kept done item
  rw [shape, List.mem_append] at member
  rcases member with removal | inTail
  · obtain ⟨name, -, rfl⟩ := List.mem_map.mp removal
    rfl
  · cases form with
    | decls expanded kind origins => exact ChunkOrigin.item_of_declItem (origins chunk inTail)
    | directive printed =>
      rw [List.mem_singleton.mp inTail]
      rfl
    | inclusion silent =>
      rw [List.mem_singleton.mp inTail]
      rfl
    | empty silent => cases inTail

theorem item_of_mem_chunksFrom {items : List ItemId} (member : chunk ∈ session.chunksFrom closure kept done items) :
    chunk.origin.item ∈ items := by
  obtain ⟨item, listed, done, own⟩ := exists_item_of_mem member
  rw [item_of_mem_itemChunks own]
  exact listed

theorem chunksFrom_append (first second : List ItemId) : session.chunksFrom closure kept done (first ++ second) =
    session.chunksFrom closure kept done first ++
      session.chunksFrom closure kept (session.doneFrom closure kept done first) second := by
  induction first generalizing done with
  | nil => rfl
  | cons item rest ih =>
      rw [List.cons_append, chunksFrom_cons, chunksFrom_cons, ih, List.append_assoc, doneFrom, doneFrom,
      List.foldl_cons]

/-- The chunks of an item stand between those of the items before it and those of the items behind it. -/
theorem chunks_split {item : Nat} (known : item < session.program.items.size) : ∃ before after,
    session.chunks closure kept =
      before ++ ((session.itemChunks closure kept (session.doneBefore closure kept item) item).1 ++ after) ∧
    (∀ chunk ∈ before, chunk.origin.item < item) ∧ ∀ chunk ∈ after, item < chunk.origin.item := by
  obtain ⟨count, size⟩ : ∃ count, session.program.items.size = item + 1 + count :=
    ⟨session.program.items.size - (item + 1), by omega⟩
  refine ⟨session.chunksFrom closure kept [] (List.range item), session.chunksFrom closure kept
    (session.itemChunks closure kept (session.doneBefore closure kept item) item).2
    ((List.range count).map (item + 1 + ·)), ?_, fun chunk member => ?_, fun chunk member => ?_⟩
  · rw [chunks, size, List.range_add, List.range_succ, List.append_assoc, chunksFrom_append, List.singleton_append,
      chunksFrom_cons]
    rfl
  · exact List.mem_range.mp (item_of_mem_chunksFrom member)
  · obtain ⟨index, -, place⟩ := List.mem_map.mp (item_of_mem_chunksFrom member)
    rw [← place]
    omega

theorem opens_of_mem {target : Nat} (member : chunk ∈ session.chunks closure kept)
    (holds : chunk.origin.declItem? = some target) : target < session.program.items.size ∧ ∃ members,
      session.Opens kept target members ∧
        chunk ∈ (session.declChunks closure (session.doneBefore closure kept target) target members).1 := by
  have place := ChunkOrigin.item_of_declItem holds
  have known : target < session.program.items.size := by
    rw [← place]
    exact List.mem_range.mp (item_of_mem_chunksFrom member)
  obtain ⟨before, after, split, earlier, later⟩ := @chunks_split session closure kept target known
  have own : chunk ∈ (session.itemChunks closure kept (session.doneBefore closure kept target) target).1 := by
    rw [split, List.mem_append, List.mem_append] at member
    rcases member with inFront | own | behind
    · exact absurd place (Nat.ne_of_lt (earlier chunk inFront))
    · exact own
    · exact absurd place (Nat.ne_of_gt (later chunk behind))
  refine ⟨known, ?_⟩
  rcases session.itemChunks_cases closure kept (session.doneBefore closure kept target) target with
    ⟨members, opens, shape⟩ | ⟨-, -, plain⟩
  · rw [shape, List.mem_append] at own
    rcases own with removal | listed
    · obtain ⟨name, -, rfl⟩ := List.mem_map.mp removal
      cases holds
    · exact ⟨members, opens, listed⟩
  · rw [plain chunk own] at holds
    cases holds

theorem filter_undefChunks {keep : Chunk → Bool}
    (silent : ∀ name, keep ⟨.undef name item, ("#undef " ++ name).toList⟩ = false) :
    (session.undefChunks closure item).filter keep = [] := by
  rw [List.filter_eq_nil_iff]
  intro chunk member
  obtain ⟨name, -, rfl⟩ := List.mem_map.mp member
  rw [silent name]
  exact Bool.false_ne_true

theorem filter_chunks_at {item : Nat} (known : item < session.program.items.size) {keep : Chunk → Bool}
    (elsewhere : ∀ chunk, chunk.origin.item ≠ item → keep chunk = false) : (session.chunks closure kept).filter keep =
      (session.itemChunks closure kept (session.doneBefore closure kept item) item).1.filter keep := by
  obtain ⟨before, after, split, earlier, later⟩ := @chunks_split session closure kept item known
  have front : before.filter keep = [] := by
    rw [List.filter_eq_nil_iff]
    intro chunk member
    simp [elsewhere chunk (Nat.ne_of_lt (earlier chunk member))]
  have back : after.filter keep = [] := by
    rw [List.filter_eq_nil_iff]
    intro chunk member
    simp [elsewhere chunk (Nat.ne_of_gt (later chunk member))]
  rw [split, List.filter_append, List.filter_append, front, back, List.nil_append, List.append_nil]

theorem Opens.filter_chunks {item : Nat} (known : item < session.program.items.size)
    (opens : session.Opens kept item members) :
    (session.chunks closure kept).filter (·.origin.declItem? == some item) =
      (session.declChunks closure (session.doneBefore closure kept item) item members).1 := by
  rw [filter_chunks_at known, opens.itemChunks_eq, List.filter_append, filter_undefChunks fun _ => rfl, List.nil_append,
    List.filter_eq_self]
  · intro chunk member
    simp [declChunks_declItem members chunk member]
  · intro chunk differs
    rw [beq_eq_false_iff_ne]
    exact fun holds => differs (ChunkOrigin.item_of_declItem holds)

section Parts

variable {decls : List DeclId}

theorem splitParts_printed : (session.splitParts closure item done decls).printed =
    decls.filter fun id => (closure.renameFor? session.program id).isNone := by
  fun_induction splitParts session closure item done decls with
  | case1 done => rfl
  | case2 done id rest plain parts ih => simp [parts, plain, ih]
  | case3 done id rest rename found chain known ih => simp [found, ih]
  | case4 done id rest rename found chain fresh parts ih => simp [found, parts, ih]

theorem mem_splitParts_done {chain : ChainId} : chain ∈ (session.splitParts closure item done decls).done ↔
    chain ∈ done ∨ ∃ id ∈ decls, (closure.renameFor? session.program id).isSome = true ∧
      (session.program.decl id).chain = chain := by
  fun_induction splitParts session closure item done decls with
  | case1 done => simp
  | case2 done id rest plain parts ih => simp [parts, plain, ih]
  | case3 done id rest rename found own known ih =>
    rw [ih]
    simp only [List.mem_cons, exists_eq_or_imp, found, Option.isSome_some, true_and]
    have listed : own ∈ done := by simpa using known
    constructor
    · exact Or.imp_right .inr
    · intro either
      rcases either with old | same | later
      · exact .inl old
      · exact .inl (same ▸ listed)
      · exact .inr later
  | case4 done id rest rename found own fresh parts ih =>
    simp only [parts, ih, List.mem_cons, exists_eq_or_imp, found, Option.isSome_some, true_and]
    rw [eq_comm, or_assoc, or_left_comm]

theorem pointer_of_mem (member : chunk ∈ (session.splitParts closure item done decls).pointers) :
    ∃ id rename, id ∈ decls ∧ closure.renameFor? session.program id = some rename ∧
      session.pointerChunk? item id rename = some chunk := by
  fun_induction splitParts session closure item done decls with
  | case1 done => cases member
  | case2 done id rest plain parts ih =>
    obtain ⟨id, rename, listed, facts⟩ := ih member
    exact ⟨id, rename, List.mem_cons_of_mem _ listed, facts⟩
  | case3 done id rest rename found chain known ih =>
    obtain ⟨id, rename, listed, facts⟩ := ih member
    exact ⟨id, rename, List.mem_cons_of_mem _ listed, facts⟩
  | case4 done id rest rename found chain fresh parts ih =>
    rcases List.mem_append.mp member with own | later
    · exact ⟨id, rename, List.mem_cons_self, found, Option.mem_toList.mp own⟩
    · obtain ⟨id, rename, listed, facts⟩ := ih later
      exact ⟨id, rename, List.mem_cons_of_mem _ listed, facts⟩

theorem pointerChunk_origin {id : DeclId} {rename : Rename} (made : session.pointerChunk? item id rename = some chunk) :
    chunk.origin = .pointer id item := by
  obtain ⟨spans, -, made⟩ := Option.bind_eq_some_iff.mp made
  obtain ⟨text, -, rfl⟩ := Option.map_eq_some_iff.mp made
  rfl

/-- The first declaration of a chain whose pointer is not printed yet prints it. -/
theorem mem_pointers {front back : List DeclId} {id : DeclId} {rename : Rename}
    (found : closure.renameFor? session.program id = some rename) (fresh : (session.program.decl id).chain ∉ done)
    (first : ∀ other ∈ front, (closure.renameFor? session.program other).isSome = true →
      (session.program.decl other).chain ≠ (session.program.decl id).chain)
    (made : session.pointerChunk? item id rename = some chunk) :
    chunk ∈ (session.splitParts closure item done (front ++ id :: back)).pointers := by
  induction front generalizing done with
  | nil => simp [splitParts, found, fresh, made]
  | cons head rest ih =>
    have others : ∀ other ∈ rest, (closure.renameFor? session.program other).isSome = true →
        (session.program.decl other).chain ≠ (session.program.decl id).chain :=
      fun other member => first other (List.mem_cons_of_mem _ member)
    rw [List.cons_append, splitParts]
    cases lookup : closure.renameFor? session.program head with
    | none => exact ih fresh others
    | some own =>
      have differs := first head List.mem_cons_self (by rw [lookup]; rfl)
      dsimp only
      split_ifs
      · exact ih fresh others
      · refine List.mem_append_right _ (ih ?_ others)
        rw [List.mem_cons, not_or]
        exact ⟨differs.symm, fresh⟩

end Parts

section Chains

theorem splitParts_chains {decls : List DeclId} :
    (pointerChains session.program (session.splitParts closure item done decls).pointers).Nodup ∧
      ∀ chain ∈ pointerChains session.program (session.splitParts closure item done decls).pointers, chain ∉ done := by
  fun_induction splitParts session closure item done decls with
  | case1 done => simp [pointerChains]
  | case2 done id rest plain parts ih => exact ih
  | case3 done id rest rename found chain known ih => exact ih
  | case4 done id rest rename found chain fresh parts ih =>
    obtain ⟨distinct, apart⟩ := ih
    have later : ∀ other ∈ pointerChains session.program parts.pointers, other ∉ done :=
      fun other member old => apart other member (List.mem_cons_of_mem _ old)
    cases made : session.pointerChunk? item id rename with
    | none => exact ⟨by simpa using distinct, by simpa using later⟩
    | some chunk =>
      have shape : pointerChains session.program ((some chunk).toList ++ parts.pointers) =
          chain :: pointerChains session.program parts.pointers := by
        simp [pointerChains, pointerChunk_origin made, ChunkOrigin.chain?, chain]
      rw [shape]
      refine ⟨List.nodup_cons.mpr ⟨fun listed => apart chain listed List.mem_cons_self, distinct⟩, ?_⟩
      intro other member
      rcases List.mem_cons.mp member with rfl | listed
      · simpa using fresh
      · exact later other listed

theorem chain_of_not_decl (plain : chunk.origin.declItem? = none) : chunk.origin.chain? session.program = none := by
  cases origin : chunk.origin <;> rw [origin] at plain <;> first | rfl | cases plain

theorem pointerChains_append (first second : List Chunk) : pointerChains session.program (first ++ second) =
    pointerChains session.program first ++ pointerChains session.program second :=
  List.filterMap_append

theorem pointerChains_eq_nil {chunks : List Chunk} (plain : ∀ chunk ∈ chunks, chunk.origin.declItem? = none) :
    pointerChains session.program chunks = [] := by
  rw [pointerChains, List.filterMap_eq_nil_iff]
  exact fun chunk member => chain_of_not_decl (plain chunk member)

theorem printedChunk_chain {parts : ItemParts} :
    pointerChains session.program (session.printedChunk? closure item members parts).toList = [] := by
  unfold printedChunk?
  dsimp only
  split_ifs <;> rfl

theorem declChunks_chains : pointerChains session.program (session.declChunks closure done item members).1 =
    pointerChains session.program (session.splitParts closure item done (session.marked closure members)).pointers := by
  rw [declChunks]
  dsimp only
  rw [pointerChains_append, printedChunk_chain, List.append_nil]
  rfl

/-- The step: an item prints pointers of new chains only, and carries them along. -/
theorem itemChunks_chains :
    (pointerChains session.program (session.itemChunks closure kept done item).1).Nodup ∧
    (∀ chain ∈ pointerChains session.program (session.itemChunks closure kept done item).1,
      chain ∉ done ∧ chain ∈ (session.itemChunks closure kept done item).2) ∧
    ∀ chain ∈ done, chain ∈ (session.itemChunks closure kept done item).2 := by
  rcases session.itemChunks_cases closure kept done item with ⟨members, opens, shape⟩ | ⟨-, same, plain⟩
  · have removals : pointerChains session.program (session.undefChunks closure item) = [] := by
      apply pointerChains_eq_nil
      intro chunk member
      obtain ⟨name, -, rfl⟩ := List.mem_map.mp member
      rfl
    rw [shape, pointerChains_append, removals, List.nil_append, declChunks_chains]
    obtain ⟨distinct, apart⟩ := @splitParts_chains session closure done item (session.marked closure members)
    refine ⟨distinct, fun chain listed => ⟨apart chain listed, ?_⟩, fun chain old => mem_splitParts_done.mpr (.inl old)⟩
    obtain ⟨chunk, member, own⟩ := List.mem_filterMap.mp listed
    obtain ⟨id, rename, marked, found, made⟩ := pointer_of_mem member
    rw [pointerChunk_origin made] at own
    exact mem_splitParts_done.mpr (.inr ⟨id, marked, by rw [found]; rfl, Option.some.inj own⟩)
  · rw [pointerChains_eq_nil plain, same]
    exact ⟨.nil, fun chain listed => absurd listed List.not_mem_nil, fun chain old => old⟩

/-- The run: each chain has one pointer at most. -/
theorem chunksFrom_chains {items : List ItemId} :
    (pointerChains session.program (session.chunksFrom closure kept done items)).Nodup ∧
      ∀ chain ∈ pointerChains session.program (session.chunksFrom closure kept done items), chain ∉ done := by
  induction items generalizing done with
  | nil => simp [chunksFrom, pointerChains]
  | cons item rest ih =>
    obtain ⟨own, fresh, kept⟩ := @itemChunks_chains session closure kept done item
    obtain ⟨later, apart⟩ := @ih (session.itemChunks closure _ done item).2
    rw [chunksFrom_cons, pointerChains_append]
    constructor
    · exact List.nodup_append.mpr ⟨own, later, fun chain first other second same =>
        apart other second (same ▸ (fresh chain first).2)⟩
    · intro chain member
      rcases List.mem_append.mp member with first | second
      · exact (fresh chain first).1
      · exact fun old => apart chain second (kept chain old)

theorem chunks_chains_nodup : (pointerChains session.program (session.chunks closure kept)).Nodup :=
  chunksFrom_chains.1

theorem exists_of_mem_doneFrom {items : List ItemId} {chain : ChainId}
    (member : chain ∈ session.doneFrom closure kept done items) : chain ∈ done ∨ ∃ item ∈ items, ∃ members,
      session.Opens kept item members ∧ ∃ id ∈ session.marked closure members,
        (closure.renameFor? session.program id).isSome = true ∧ (session.program.decl id).chain = chain := by
  induction items generalizing done with
  | nil => exact .inl member
  | cons item rest ih =>
    rw [doneFrom, List.foldl_cons] at member
    rcases ih member with old | ⟨other, listed, facts⟩
    · rcases session.itemChunks_cases closure kept done item with ⟨members, opens, shape⟩ | ⟨-, same, -⟩
      · rw [shape] at old
        rcases mem_splitParts_done.mp old with older | marked
        · exact .inl older
        · exact .inr ⟨item, List.mem_cons_self, members, opens, marked⟩
      · exact .inl (same ▸ old)
    · exact .inr ⟨other, List.mem_cons_of_mem _ listed, facts⟩

end Chains

end Session

end Excerpt
