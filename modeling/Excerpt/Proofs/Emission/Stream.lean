import Excerpt.Extraction
import Excerpt.Proofs.Data.Sorted

/-!
The output read as a preprocessor does: a removal takes a name away, a printed directive defines its name.
-/

namespace Excerpt

namespace ChunkOrigin

def declItem? : ChunkOrigin → Option ItemId
  | .pointer _ item => some item
  | .whole item => some item
  | .selection item => some item
  | .tags item => some item
  | _ => none

/-- The definition of a name behind a chunk, where `current` is the one in front of it. -/
def define (program : Program) (name : String) (current : Option MacroId) : ChunkOrigin → Option MacroId
  | .undef removed _ => if removed = name then none else current
  | .directive id _ => if (program.directive id).name = name then some id else current
  | _ => current

theorem define_of_declItem {program : Program} {name : String} {current : Option MacroId} {origin : ChunkOrigin}
    {item : ItemId} (holds : origin.declItem? = some item) : origin.define program name current = current := by
  cases origin with
  | undef => cases holds
  | inclusion => cases holds
  | directive => cases holds
  | pointer => rfl
  | whole => rfl
  | selection => rfl
  | tags => rfl

end ChunkOrigin

def definitionFrom (program : Program) (name : String) (current : Option MacroId) (chunks : List Chunk) :
    Option MacroId :=
  chunks.foldl (fun current chunk => chunk.origin.define program name current) current

def definitionIn (program : Program) (name : String) (chunks : List Chunk) : Option MacroId :=
  definitionFrom program name none chunks

section Definition

variable {program : Program} {name : String} {current : Option MacroId}

theorem definitionFrom_append (first second : List Chunk) :
    definitionFrom program name current (first ++ second) =
      definitionFrom program name (definitionFrom program name current first) second :=
  List.foldl_append

theorem definitionFrom_of_decls {chunks : List Chunk} {item : ItemId}
    (origins : ∀ chunk ∈ chunks, chunk.origin.declItem? = some item) :
    definitionFrom program name current chunks = current := by
  induction chunks with
  | nil => rfl
  | cons first rest ih =>
    rw [definitionFrom, List.foldl_cons, ChunkOrigin.define_of_declItem (origins first List.mem_cons_self)]
    exact ih fun chunk member => origins chunk (List.mem_cons_of_mem _ member)

end Definition

namespace Session

variable (session : Session) (closure : Closure) {chunk : Chunk} {before after : List Chunk}

def printedDirective? (item : ItemId) : Option MacroId :=
  if session.program.isFileExpanded session.keepIncludes (session.program.item item).file then
    match (session.program.item item).kind with
    | .directive id => if closure.macros.contains id then some id else none
    | _ => none
  else none

def undefChunks (item : ItemId) : List Chunk :=
  (session.undefsBefore closure item).map fun name => Chunk.mk (.undef name item) ("#undef " ++ name).toList

def afterUndefs (name : String) (current : Option MacroId) (item : ItemId) : Option MacroId :=
  if name ∈ session.undefsBefore closure item then none else current

def afterItem (name : String) (current : Option MacroId) (item : ItemId) : Option MacroId :=
  match (session.printedDirective? closure item).filter fun id => (session.program.directive id).name == name with
  | some id => some id
  | none => session.afterUndefs closure name current item

inductive ItemTail (item : ItemId) : List Chunk → Prop
  | decls {members : List DeclId} {tail : List Chunk}
      (expanded : session.program.isFileExpanded session.keepIncludes (session.program.item item).file = true)
      (kind : (session.program.item item).kind = .decls members)
      (origins : ∀ chunk ∈ tail, chunk.origin.declItem? = some item) : ItemTail item tail
  | directive {id : MacroId} {text : List Char} (printed : session.printedDirective? closure item = some id) :
      ItemTail item [⟨.directive id item, text⟩]
  | inclusion {id : IncludeId} {text : List Char} (silent : session.printedDirective? closure item = none) :
      ItemTail item [⟨.inclusion id item, text⟩]
  | empty (silent : session.printedDirective? closure item = none) : ItemTail item []

variable {session closure} {name : String} {current : Option MacroId} {item : ItemId} {kept : IdSet}
  {done : List ChainId}

theorem mem_undefsBefore : name ∈ session.undefsBefore closure item ↔ ∃ id ∈ closure.needsUndef,
    session.undefSlot? id = some item ∧ (session.program.directive id).name = name := by
  rw [undefsBefore, List.mem_eraseDups, mem_stableSort, List.mem_map]
  simp only [List.mem_filter, beq_iff_eq, and_assoc]

theorem definitionFrom_undefChunks : definitionFrom session.program name current (session.undefChunks closure item) =
    session.afterUndefs closure name current item := by
  rw [undefChunks, afterUndefs]
  generalize session.undefsBefore closure item = names
  induction names generalizing current with
  | nil => rfl
  | cons first rest ih =>
    rw [List.map_cons, definitionFrom, List.foldl_cons]
    refine ih.trans ?_
    by_cases same : first = name
    · simp [ChunkOrigin.define, same]
    · simp [ChunkOrigin.define, same, Ne.symm same]

theorem pointers_origin (decls : List DeclId) :
    ∀ chunk ∈ (session.splitParts closure item done decls).pointers, ∃ id, chunk.origin = .pointer id item := by
  fun_induction splitParts session closure item done decls with
  | case1 done =>
    intro chunk member
    cases member
  | case2 done id rest plain parts ih => exact ih
  | case3 done id rest rename found chain known ih => exact ih
  | case4 done id rest rename found chain fresh parts ih =>
    intro chunk member
    rcases List.mem_append.mp member with own | later
    · obtain ⟨spans, -, made⟩ := Option.bind_eq_some_iff.mp (Option.mem_toList.mp own)
      obtain ⟨text, -, rfl⟩ := Option.map_eq_some_iff.mp made
      exact ⟨id, rfl⟩
    · exact ih chunk later

theorem printedChunk_declItem {decls : List DeclId} {parts : ItemParts}
    (found : session.printedChunk? closure item decls parts = some chunk) :
    chunk.origin.declItem? = some item := by
  unfold printedChunk? at found
  dsimp only at found
  split_ifs at found <;> cases found <;> rfl

theorem declChunks_declItem (decls : List DeclId) :
    ∀ chunk ∈ (session.declChunks closure done item decls).1, chunk.origin.declItem? = some item := by
  intro chunk member
  rcases List.mem_append.mp member with pointer | printed
  · obtain ⟨id, origin⟩ := pointers_origin _ chunk pointer
    rw [origin]
    rfl
  · exact printedChunk_declItem (Option.mem_toList.mp printed)

/-- Each item prints its removals first and then declarations, or at most one line. -/
theorem itemChunks_eq (session : Session) (closure : Closure) (kept : IdSet) (done : List ChainId) (item : ItemId) :
    ∃ tail, (session.itemChunks closure kept done item).1 = session.undefChunks closure item ++ tail ∧
      session.ItemTail closure item tail := by
  unfold itemChunks
  dsimp only
  by_cases expanded : session.program.isFileExpanded session.keepIncludes (session.program.item item).file = true
  · rw [if_pos expanded]
    cases kind : (session.program.item item).kind with
    | inclusion id =>
      have silent : session.printedDirective? closure item = none := by simp [printedDirective?, kind]
      dsimp only
      split_ifs
      · exact ⟨_, rfl, .inclusion silent⟩
      · exact ⟨[], (List.append_nil _).symm, .empty silent⟩
    | directive id =>
      dsimp only
      split_ifs with marked
      · exact ⟨_, rfl, .directive (by simp [printedDirective?, expanded, kind, List.contains_iff_mem.mp marked])⟩
      · exact ⟨[], (List.append_nil _).symm,
          .empty (by simpa [printedDirective?, kind] using fun _ => by simpa using marked)⟩
    | decls members =>
      dsimp only
      split_ifs
      · exact ⟨_, rfl, .decls expanded kind (declChunks_declItem members)⟩
      · exact ⟨[], (List.append_nil _).symm, .empty (by simp [printedDirective?, kind])⟩
    | other => exact ⟨[], (List.append_nil _).symm, .empty (by simp [printedDirective?, kind])⟩
  · rw [if_neg expanded]
    exact ⟨[], (List.append_nil _).symm, .empty (by simp [printedDirective?, expanded])⟩

theorem ItemTail.definition {tail : List Chunk} (shape : session.ItemTail closure item tail) :
    definitionFrom session.program name (session.afterUndefs closure name current item) tail =
      session.afterItem closure name current item := by
  cases shape with
  | decls expanded kind origins =>
    have silent : session.printedDirective? closure item = none := by simp [printedDirective?, kind]
    rw [definitionFrom_of_decls origins, afterItem, silent]
    rfl
  | @directive id text printed =>
    by_cases same : (session.program.directive id).name = name
    · simp [definitionFrom, ChunkOrigin.define, afterItem, printed, same, Option.filter]
    · simp [definitionFrom, ChunkOrigin.define, afterItem, printed, same, Option.filter]
  | inclusion silent =>
    rw [afterItem, silent]
    rfl
  | empty silent =>
    rw [afterItem, silent]
    rfl

/-- One item changes the definition in force by its removals and its directive only. -/
theorem definitionFrom_itemChunks :
    definitionFrom session.program name current (session.itemChunks closure kept done item).1 =
    session.afterItem closure name current item := by
  obtain ⟨tail, shape, rest⟩ := session.itemChunks_eq closure kept done item
  rw [shape, definitionFrom_append, definitionFrom_undefChunks, rest.definition]

theorem mem_append_split {first second : List Chunk}
    (split : first ++ second = before ++ chunk :: after) :
    (∃ more, first = before ++ chunk :: more) ∨ ∃ more, before = first ++ more ∧ second = more ++ chunk :: after := by
  rcases List.append_eq_append_iff.mp split with ⟨more, inFront, later⟩ | ⟨more, own, later⟩
  · exact .inr ⟨more, inFront, later⟩
  · rcases List.cons_eq_append_iff.mp later with ⟨rfl, behind⟩ | ⟨rest, rfl, -⟩
    · exact .inr ⟨[], by simpa using own.symm, behind⟩
    · exact .inl ⟨rest, own⟩

theorem chunksFrom_cons (items : List ItemId) : session.chunksFrom closure kept done (item :: items) =
    (session.itemChunks closure kept done item).1 ++
      session.chunksFrom closure kept (session.itemChunks closure kept done item).2 items :=
  rfl

/-- In front of a chunk with declarations only the removals of its item have been printed. -/
theorem definitionFrom_ownChunks {target : ItemId}
    (split : (session.itemChunks closure kept done item).1 = before ++ chunk :: after)
    (holds : chunk.origin.declItem? = some target) :
    target = item ∧ session.program.isFileExpanded session.keepIncludes (session.program.item item).file = true ∧
      (∃ members, (session.program.item item).kind = .decls members) ∧
      ∀ current, definitionFrom session.program name current before =
        session.afterUndefs closure name current item := by
  obtain ⟨tail, shape, form⟩ := session.itemChunks_eq closure kept done item
  rw [split] at shape
  rcases mem_append_split shape.symm with ⟨more, removals⟩ | ⟨front, beforeShape, tailShape⟩
  · -- The chunk would be a removal, which holds no declarations.
    have member : chunk ∈ session.undefChunks closure item := by simp [removals]
    obtain ⟨removed, -, rfl⟩ := List.mem_map.mp member
    cases holds
  · have member : chunk ∈ tail := by simp [tailShape]
    cases form with
    | @decls members _ expanded kind origins =>
      have own := origins chunk member
      rw [holds] at own
      refine ⟨Option.some.inj own, expanded, ⟨members, kind⟩, fun current => ?_⟩
      rw [beforeShape, definitionFrom_append, definitionFrom_undefChunks]
      exact definitionFrom_of_decls fun other present => origins other (by simp [tailShape, present])
    | directive printed =>
      rw [List.mem_singleton.mp member] at holds
      cases holds
    | inclusion silent =>
      rw [List.mem_singleton.mp member] at holds
      cases holds
    | empty silent => cases member

/-- The definition in force at a chunk is found by going through the items before its own. -/
theorem definitionFrom_chunksFrom {items : List ItemId}
    (split : session.chunksFrom closure kept done items = before ++ chunk :: after) :
    ∃ first target rest done own more, items = first ++ target :: rest ∧
      (session.itemChunks closure kept done target).1 = own ++ chunk :: more ∧
      ∀ name current, definitionFrom session.program name current before =
        definitionFrom session.program name (first.foldl (session.afterItem closure name) current) own := by
  induction items generalizing done before with
  | nil =>
    rw [chunksFrom] at split
    exact absurd split.symm (by simp)
  | cons item items ih =>
    rw [chunksFrom_cons] at split
    rcases mem_append_split split with ⟨more, own⟩ | ⟨more, inFront, later⟩
    · exact ⟨[], item, items, done, before, more, rfl, own, fun _ _ => rfl⟩
    · obtain ⟨first, target, rest, done, own, behind, shape, place, value⟩ := ih later
      refine ⟨item :: first, target, rest, done, own, behind, by rw [shape, List.cons_append], place, ?_⟩
      intro name current
      rw [inFront, definitionFrom_append, definitionFrom_itemChunks, value, List.foldl_cons]

/-- The definition of a name in front of an item, found by going through the items before it. -/
def definitionAt (session : Session) (closure : Closure) (name : String) (item : ItemId) : Option MacroId :=
  (List.range item).foldl (session.afterItem closure name) none

theorem definitionAt_succ (item : Nat) : session.definitionAt closure name (item + 1) =
    session.afterItem closure name (session.definitionAt closure name item) item := by
  rw [definitionAt, List.range_succ, List.foldl_append]
  rfl

theorem range_split {count target : Nat} {first rest : List Nat} (split : List.range count = first ++ target :: rest) :
    first = List.range target ∧ target < count := by
  rw [List.range_eq_range'] at split
  obtain ⟨length, within, shape, remainder⟩ := List.range'_eq_append_iff.mp split
  cases left : count - length with
  | zero => simp [left] at remainder
  | succ left =>
    rw [left, List.range'_succ] at remainder
    obtain ⟨same, -⟩ := List.cons_eq_cons.mp remainder
    have same : target = length := by omega
    subst same
    exact ⟨by rw [shape, List.range_eq_range'], by omega⟩

theorem definitionIn_split (split : session.chunks closure kept = before ++ chunk :: after) :
    ∃ (target : Nat) (done : List ChainId) (own more : List Chunk), target < session.program.items.size ∧
      (session.itemChunks closure kept done target).1 = own ++ chunk :: more ∧
      ∀ name, definitionIn session.program name before =
        definitionFrom session.program name (session.definitionAt closure name target) own := by
  obtain ⟨first, target, rest, done, own, more, shape, place, value⟩ := definitionFrom_chunksFrom split
  obtain ⟨rfl, inside⟩ := range_split shape
  exact ⟨target, done, own, more, inside, place, fun name => value name none⟩

theorem definitionIn_chunks {target : Nat}
    (split : session.chunks closure kept = before ++ chunk :: after)
    (holds : chunk.origin.declItem? = some target) : target < session.program.items.size ∧
      session.program.isFileExpanded session.keepIncludes (session.program.item target).file = true ∧
      (∃ members, (session.program.item target).kind = .decls members) ∧
      definitionIn session.program name before =
        session.afterUndefs closure name (session.definitionAt closure name target) target := by
  obtain ⟨item, done, own, more, inside, place, value⟩ := definitionIn_split split
  obtain ⟨rfl, expanded, kind, behind⟩ := definitionFrom_ownChunks place holds
  exact ⟨inside, expanded, kind, (value name).trans (behind _)⟩

section Run

variable {low high : Nat}

theorem definitionAt_of_silent (below : low ≤ high)
    (silent : ∀ j : Nat, low ≤ j → j < high → session.afterItem closure name (session.definitionAt closure name j) j =
      session.definitionAt closure name j) :
    session.definitionAt closure name high = session.definitionAt closure name low := by
  induction high, below using Nat.le_induction with
  | base => rfl
  | succ high below ih =>
    rw [definitionAt_succ, silent high below (Nat.lt_succ_self high)]
    exact ih fun j from_ less => silent j from_ (Nat.lt_succ_of_lt less)

theorem definitionAt_none (below : low ≤ high) (start : session.definitionAt closure name low = none)
    (silent : ∀ j : Nat, low ≤ j → j < high → session.afterItem closure name none j = none) :
    session.definitionAt closure name high = none := by
  induction high, below using Nat.le_induction with
  | base => exact start
  | succ high below ih =>
    rw [definitionAt_succ, ih fun j from_ less => silent j from_ (Nat.lt_succ_of_lt less)]
    exact silent high below (Nat.lt_succ_self high)

end Run

end Session

end Excerpt
