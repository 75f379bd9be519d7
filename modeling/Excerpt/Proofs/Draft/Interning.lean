import Excerpt.Proofs.Draft.Arrays
import Excerpt.Proofs.Draft.Carrying
import Excerpt.Proofs.Draft.Tour

/-!
The table of types while a unit is read. A type is added by one action only, and at that time the types that it is made
of are in the table.
-/

namespace Excerpt

namespace Program

/-- Some types are added to the table of a program, each with its parts in the table. The types that were asked for are
listed with the numbers that they were given. -/
inductive Interns (before : Program) : List (CType × TypeId) → Program → Prop
  | same {after : Program} (types : after.types = before.types) : Interns before [] after
  | add {calls : List (CType × TypeId)} {middle after : Program} (earlier : Interns before calls middle) (type : CType)
      (parts : ∀ part ∈ type.parts, part < middle.types.size) (types : after.types = (middle.addType type).2.types) :
      Interns before (calls ++ [(type, (middle.addType type).1)]) after

/-- The types of a table are apart, and each has a number above those of its parts. The calls have been answered by
it. -/
structure Interned (program : Program) (calls : List (CType × TypeId)) : Prop where
  nodup : program.types.toList.Nodup
  parts : ∀ whole, ∀ part ∈ (program.type whole).parts, part < whole
  answered : ∀ call ∈ calls, call.2 < program.types.size ∧ program.type call.2 = call.1

variable {before middle after : Program} {calls others : List (CType × TypeId)}

theorem addType_types (program : Program) (type : CType) : (program.addType type).2.types = program.types ∨
    type ∉ program.types ∧ (program.addType type).2.types = program.types.push type := by
  unfold addType
  split
  · exact .inl rfl
  · next absent =>
    refine .inr ⟨fun listed => ?_, rfl⟩
    simpa using Array.findIdx?_eq_none_iff.mp absent type listed

theorem addType_lt (program : Program) (type : CType) :
    (program.addType type).1 < (program.addType type).2.types.size := by
  unfold addType
  split
  · next found => exact (Array.findIdx?_eq_some_iff_getElem.mp found).1
  · simp

theorem addType_stays (program : Program) (type : CType) : program.TypesStay (program.addType type).2 :=
  (Drafting.addType_grows { program } type).1.types

theorem type_congr (types : after.types = before.types) : after.type = before.type := by
  funext id
  rw [Program.type, Program.type, types]

theorem Interned.congr (interned : before.Interned calls) (types : after.types = before.types) :
    after.Interned calls := by
  obtain ⟨nodup, parts, answered⟩ := interned
  rw [← types] at nodup answered
  rw [← type_congr types] at parts answered
  exact ⟨nodup, parts, answered⟩

/-- The parts of a type have smaller numbers than the type. -/
theorem parts_addType {type : CType} (known : ∀ part ∈ type.parts, part < before.types.size)
    (parts : ∀ whole, ∀ part ∈ (before.type whole).parts, part < whole) :
    ∀ whole, ∀ part ∈ ((before.addType type).2.type whole).parts, part < whole := by
  intro whole part listed
  by_cases old : whole < before.types.size
  · rw [(before.addType_stays type whole old).2] at listed
    exact parts whole part listed
  rcases before.addType_types type with same | ⟨-, pushed⟩
  · rw [type_congr same] at listed
    exact parts whole part listed
  · have new : (before.addType type).2.type whole = type ∨ (before.addType type).2.type whole = default := by
      rw [Program.type, pushed, Array.getD_eq_getD_getElem?, Array.getElem?_push]
      split
      · exact .inl rfl
      · rw [Array.getElem?_eq_none (Nat.not_lt.mp old)]
        exact .inr rfl
    rcases new with new | new <;> rw [new] at listed
    · exact (known part listed).trans_le (Nat.not_lt.mp old)
    · cases listed

/-- A type is looked up before it is added, so the table has no type twice and a type has one number. -/
theorem Interned.addType (interned : before.Interned calls) (type : CType)
    (known : ∀ part ∈ type.parts, part < before.types.size) :
    (before.addType type).2.Interned (calls ++ [(type, (before.addType type).1)]) where
  nodup := by
    rcases before.addType_types type with same | ⟨fresh, pushed⟩
    · rw [same]
      exact interned.nodup
    · rw [pushed, Array.toList_push, List.nodup_append]
      refine ⟨interned.nodup, List.nodup_singleton type, fun old listed new isNew same => fresh ?_⟩
      rw [← List.mem_singleton.mp isNew, ← same]
      exact Array.mem_toList_iff.mp listed
  parts := parts_addType known interned.parts
  answered call listed := by
    rcases List.mem_append.mp listed with listed | isNew
    · obtain ⟨inside, same⟩ := interned.answered call listed
      obtain ⟨still, kept⟩ := before.addType_stays type call.2 inside
      exact ⟨still, kept.trans same⟩
    · rw [List.mem_singleton.mp isNew]
      exact ⟨before.addType_lt type, before.type_addType type⟩

/-- Whatever is added, the table is in order, and it has answered every call. -/
theorem Interns.interned (run : ({} : Program).Interns calls after) : after.Interned calls := by
  induction run with
  | same types =>
    have empty : ({} : Program).Interned [] := by
      refine ⟨List.nodup_nil, fun whole part listed => ?_, by simp⟩
      cases listed
    exact empty.congr types
  | add _ type parts types ih => exact (ih.addType type parts).congr types

theorem Interns.congr (run : before.Interns calls middle) (types : after.types = middle.types) :
    before.Interns calls after := by
  cases run with
  | same earlier => exact .same (types.trans earlier)
  | add run type parts earlier => exact .add run type parts (types.trans earlier)

theorem Interns.size_le (run : before.Interns calls after) : before.types.size ≤ after.types.size := by
  induction run with
  | same types => exact types ▸ Nat.le_refl _
  | @add _ middle _ _ type _ types ih =>
    rw [types]
    rcases middle.addType_types type with same | ⟨-, pushed⟩
    · exact same ▸ ih
    · rw [pushed, Array.size_push]
      exact Nat.le_succ_of_le ih

theorem Interned.number_eq_iff (interned : after.Interned calls) {first second : CType × TypeId}
    (isFirst : first ∈ calls) (isSecond : second ∈ calls) : first.2 = second.2 ↔ first.1 = second.1 := by
  obtain ⟨firstInside, firstType⟩ := interned.answered first isFirst
  obtain ⟨secondInside, secondType⟩ := interned.answered second isSecond
  refine ⟨fun same => by rw [← firstType, ← secondType, same], fun same => ?_⟩
  have entries : after.types[first.2] = after.types[second.2] := by
    rw [Program.type, Array.getD_eq_getD_getElem?, Array.getElem?_eq_getElem firstInside] at firstType
    rw [Program.type, Array.getD_eq_getD_getElem?, Array.getElem?_eq_getElem secondInside] at secondType
    exact firstType.trans (same.trans secondType.symm)
  exact (List.Nodup.getElem_inj_iff interned.nodup).mp entries

theorem Interns.trans (first : before.Interns calls middle) (second : middle.Interns others after) :
    before.Interns (calls ++ others) after := by
  induction second with
  | same types =>
    rw [List.append_nil]
    exact first.congr types
  | add _ type parts types ih =>
    rw [← List.append_assoc]
    exact .add ih type parts types

end Program

namespace Drafting

open Surface

def InternsBetween (before after : Draft) : Prop :=
  ∃ calls, before.program.Interns calls after.program

theorem InternsBetween.trans {before middle after : Draft} (first : InternsBetween before middle)
    (second : InternsBetween middle after) : InternsBetween before after := by
  obtain ⟨calls, first⟩ := first
  obtain ⟨others, second⟩ := second
  exact ⟨calls ++ others, first.trans second⟩

theorem internsBetween_of_types {before after : Draft} (types : after.program.types = before.program.types) :
    InternsBetween before after :=
  ⟨[], .same types⟩

section Declared

variable {draft : Draft} {decl : Decl} {previous : Option DeclId} {name : String} {id : DeclId}

theorem internsBetween_addDecl : InternsBetween draft { draft with program := draft.program.addDecl decl previous } :=
  internsBetween_of_types (by cases previous <;> rfl)

theorem internsBetween_bindOrdinary :
    InternsBetween draft
      (({ draft with program := draft.program.addDecl decl previous } : Draft).bindOrdinary name id) :=
  internsBetween_addDecl.trans (internsBetween_of_types (by rw [Draft.bindOrdinary_program]))

theorem internsBetween_bindTag :
    InternsBetween draft (({ draft with program := draft.program.addDecl decl previous } : Draft).bindTag name id) :=
  internsBetween_addDecl.trans (internsBetween_of_types (by rw [Draft.bindTag_program]))

end Declared

theorem declare_interns (name : Option String) (kind : DeclKind) (storage : StorageClass) (offset : Nat)
    (declarator : Option DeclaratorSpans) (previous : Option DeclId) :
    Carried InternsBetween (declare name kind storage offset declarator previous) :=
  fun _ => internsBetween_addDecl

/-- Only one action of reading adds types; all others leave the table as it is. -/
theorem carries_interns : Carries InternsBetween fun draft type => type < draft.program.types.size where
  refl _ := internsBetween_of_types rfl
  trans := .trans
  typesStay related known := by
    obtain ⟨_, run⟩ := related
    exact run.size_le.trans_lt' known
  addType type draft known := ⟨⟨_, .add (.same rfl) type known rfl⟩, draft.program.addType_lt type⟩
  tagReference standalone kind name start draft := by
    simp only [tagReference, gives_bind, gives_get]
    split
    · exact internsBetween_bindTag
    · split
      · exact internsBetween_of_types rfl
      · exact .trans internsBetween_addDecl (internsBetween_of_types rfl)
  defineTag name start kind _ _ draft := by
    cases name with
    | none => exact internsBetween_addDecl
    | some name => exact internsBetween_bindTag
  declareObject _ _ _ _ _ _ _ _ := internsBetween_bindOrdinary
  declareTypedef _ _ _ _ _ := internsBetween_bindOrdinary
  declareBound _ _ _ _ := internsBetween_bindOrdinary
  setFields _ _ _ := internsBetween_of_types rfl
  setConstants _ _ _ := internsBetween_of_types rfl
  setInit _ _ _ := internsBetween_of_types rfl
  enterScope _ := internsBetween_of_types rfl
  leaveScope _ := internsBetween_of_types rfl
  withSpan _ _ := internsBetween_of_types rfl

theorem enterFunction_interns (storage : StorageClass) (isInline : Bool) (base : TypeSpec) (declarator : Declarator)
    (extent : Extent) (body : Expr) :
    Carried InternsBetween (enterFunction storage isInline base declarator extent body) := by
  intro draft
  simp only [enterFunction, gives_bind]
  refine (carries_interns.enterType false base draft).mono fun base first typed => ?_
  refine (carries_interns.enterDeclarator declarator typed.2).mono fun named second declared => ?_
  have ready := typed.1.trans declared
  split
  · exact ready
  · next name nameExtent _ =>
    simp only [gives_bind, gives_get, gives_modify]
    refine (declare_interns (some name) (.function named.type none isInline) storage _ _ _ second).mono
      fun id third added => ?_
    refine (carries_interns.declareParams id named.params _).mono fun _ fourth params => ?_
    refine (carries_interns.enterExpr body fourth).mono fun body fifth read => ?_
    have entered : InternsBetween third fourth := .trans (internsBetween_of_types (by simp [Draft.enterScope])) params
    exact ready.trans (added.trans (entered.trans (read.trans (internsBetween_of_types rfl))))

theorem kept_interns : Kept (fun _ => True) (InternsBetween {}) where
  names run same := run.trans (internsBetween_of_types same.types)
  code item draft _ run _ _ := by
    cases item.form with
    | function storage isInline base declarator extent body =>
      exact (enterFunction_interns storage isInline base declarator extent body draft).mono fun _ _ read =>
        run.trans read
    | declaration declaration =>
      exact (carries_interns.enterDeclaration declaration draft).mono fun _ _ read => run.trans read
    | _ => exact run

end Drafting

/-- A table of types, and an index beside it that gives the number of a type. -/
structure TypeTable where
  types : Array CType := #[]
  numbers : Std.HashMap CType TypeId := {}

namespace TypeTable

/-- The number of a type by a look-up in the index, which grows with the table. -/
def add (table : TypeTable) (type : CType) : TypeId × TypeTable :=
  match table.numbers[type]? with
  | some id => (id, table)
  | none => (table.types.size, ⟨table.types.push type, table.numbers.insert type table.types.size⟩)

/-- The numbers of types that are asked for one after another, and the table behind them. -/
def addAll (table : TypeTable) : List CType → List TypeId × TypeTable
  | [] => ([], table)
  | type :: rest => ((table.add type).1 :: ((table.add type).2.addAll rest).1, ((table.add type).2.addAll rest).2)

/-- The table is that of the program, and the index has for each type what a search of the table finds. -/
structure Indexes (table : TypeTable) (program : Program) : Prop where
  types : table.types = program.types
  numbers : ∀ type, table.numbers[type]? = program.types.findIdx? (· == type)

variable {table : TypeTable} {before after : Program}

theorem addAll_append (first second : List CType) : table.addAll (first ++ second) =
    ((table.addAll first).1 ++ ((table.addAll first).2.addAll second).1, ((table.addAll first).2.addAll second).2) := by
  induction first generalizing table with
  | nil => rfl
  | cons type rest ih => simp only [List.cons_append, addAll, ih]

theorem Indexes.congr (indexes : table.Indexes before) (types : after.types = before.types) : table.Indexes after :=
  ⟨indexes.types.trans types.symm, types ▸ indexes.numbers⟩

/-- A look-up answers as the search does, and the index is still that of the table. -/
theorem Indexes.add (indexes : table.Indexes before) (type : CType) :
    (table.add type).1 = (before.addType type).1 ∧ (table.add type).2.Indexes (before.addType type).2 := by
  unfold TypeTable.add Program.addType
  rw [indexes.numbers, ← indexes.types]
  cases found : table.types.findIdx? (· == type) with
  | some id => exact ⟨rfl, indexes⟩
  | none =>
    refine ⟨rfl, rfl, fun other => ?_⟩
    rw [Std.HashMap.getElem?_insert, indexes.numbers, ← indexes.types, Array.findIdx?_push]
    by_cases same : type = other
    · subst same
      simp [found]
    · simp [same]

/-- Whatever types are added to a program, the index gives each of them the number that the program does. -/
theorem Indexes.addAll {calls : List (CType × TypeId)} (indexes : table.Indexes before)
    (run : before.Interns calls after) : (table.addAll (calls.map Prod.fst)).1 = calls.map Prod.snd ∧
      (table.addAll (calls.map Prod.fst)).2.Indexes after := by
  induction run with
  | same types => exact ⟨rfl, indexes.congr types⟩
  | add _ type _ types ih =>
    obtain ⟨answers, indexed⟩ := ih
    obtain ⟨answer, next⟩ := indexed.add type
    rw [List.map_append, List.map_append, addAll_append, answers]
    exact ⟨congrArg (_ ++ [·]) answer, next.congr types⟩

end TypeTable

namespace Program

theorem exists_interns (files : FileSystem) (search : SearchPath) (path : String) (document : Document) :
    ∃ calls, ({} : Program).Interns calls (ofDocument files search path document) := by
  obtain ⟨draft, ⟨calls, run⟩, built⟩ := exists_draft_of_kept Drafting.kept_interns
    (Drafting.internsBetween_of_types rfl) (fun _ _ _ _ _ => trivial) fun _ _ => trivial
  rw [built]
  exact ⟨calls, run.congr rfl⟩

/-- A unit may be read with an empty table and an empty index in place of the search: the types that reading asks for
are given the same numbers and leave the same table. -/
theorem ofDocument_types_indexed (files : FileSystem) (search : SearchPath) (path : String) (document : Document) :
    ∃ calls : List (CType × TypeId), ({} : Program).Interns calls (ofDocument files search path document) ∧
      (TypeTable.addAll {} (calls.map Prod.fst)).1 = calls.map Prod.snd ∧
      (TypeTable.addAll {} (calls.map Prod.fst)).2.types = (ofDocument files search path document).types := by
  obtain ⟨calls, run⟩ := exists_interns files search path document
  have empty : ({} : TypeTable).Indexes {} := ⟨rfl, fun type => by simp⟩
  obtain ⟨answers, indexed⟩ := empty.addAll run
  exact ⟨calls, run, answers, indexed.types⟩

/-- Reading a unit only adds types with their parts in the table. Whenever types are added so, no two entries of the
table are equal, the numbers given to two types are equal exactly if the types are, and a part has a smaller number
than the whole, so that taking a type apart ends. -/
theorem ofDocument_types_interned (files : FileSystem) (search : SearchPath) (path : String) (document : Document) :
    (∃ calls, ({} : Program).Interns calls (ofDocument files search path document)) ∧
      ∀ (program : Program) calls, ({} : Program).Interns calls program → program.types.toList.Nodup ∧
        (∀ call ∈ calls, program.type call.2 = call.1) ∧
        (∀ first ∈ calls, ∀ second ∈ calls, first.2 = second.2 ↔ first.1 = second.1) ∧
        (∀ whole, ∀ part ∈ (program.type whole).parts, part < whole) ∧
        WellFounded fun part whole => program.HasPart whole part := by
  refine ⟨exists_interns files search path document, fun program calls run => ?_⟩
  have interned := run.interned
  refine ⟨interned.nodup, fun call listed => (interned.answered call listed).2, fun first isFirst second isSecond => ?_,
    interned.parts, Subrelation.wf (interned.parts _ _) Nat.lt_wfRel.wf⟩
  exact interned.number_eq_iff isFirst isSecond

end Program

end Excerpt
