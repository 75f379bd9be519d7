import Excerpt.Proofs.Draft.Files

/-!
Size expressions of arrays, followed from the source into the types of a unit. Reading folds a size where it stands and
keeps the number only. The functions here go through the same source in the same order and list each size with the draft
that it was folded in and the declaration that it belongs to.
-/

namespace Excerpt

structure SizeReading where
  text : List Char
  draft : Draft
  /-- The declaration to whose type the array belongs. -/
  holder : Option DeclId := none
  /-- A node of the tree that is read with it declares the holder. -/
  isLocal : Bool := false

namespace SizeReading

def size (reading : SizeReading) : Option Int64 :=
  reading.draft.fold reading.text

def adopt (id : DeclId) (reading : SizeReading) : SizeReading :=
  { reading with holder := reading.holder.or (some id) }

def inTree (isLocal : Bool) (reading : SizeReading) : SizeReading :=
  { reading with isLocal }

end SizeReading

namespace Drafting

open Surface

mutual

def typeSizes : TypeSpec → Draft → List SizeReading
  | .record isUnion name start fields, draft =>
    let made := (defineTag name start (.record isUnion [] true)).run draft
    (fieldsSizes fields made.2).map (·.adopt made.1)
  | .enumeration name start constants, draft =>
    let made := (defineTag name start (.enumeration [] true)).run draft
    enumeratorsSizes made.1 0 constants made.2
  | _, _ => []

def fieldsSizes : List FieldDecl → Draft → List SizeReading
  | [], _ => []
  | field :: rest, draft => fieldSizes field draft ++ fieldsSizes rest ((enterField field).run draft).2

def fieldSizes : FieldDecl → Draft → List SizeReading
  | .mk _ base declarators, draft =>
    let type := (enterType false base).run draft
    typeSizes base draft ++ fieldDeclaratorsSizes type.1 declarators type.2

def fieldDeclaratorsSizes (base : TypeId) : List Declarator → Draft → List SizeReading
  | [], _ => []
  | declarator :: rest, draft =>
    declaratorSizes base [] declarator draft ++
      fieldDeclaratorsSizes base rest ((enterDeclarator base [] declarator).run draft).2

def enumeratorsSizes (owner : DeclId) (next : Int64) : List Enumerator → Draft → List SizeReading
  | [], _ => []
  | constant :: rest, draft =>
    let made := (enterEnumerator owner next constant).run draft
    enumeratorSizes constant draft ++ enumeratorsSizes owner (made.1.2 + 1) rest made.2

def enumeratorSizes : Enumerator → Draft → List SizeReading
  | .mk _ _ _ init, draft => exprSizes init draft

def declaratorSizes (base : TypeId) (params : List TypedParam) : Declarator → Draft → List SizeReading
  | .pointer inner, draft =>
    let type := (addType (.pointer base)).run draft
    declaratorSizes type.1 params inner type.2
  | .array size inner, draft =>
    let type := (addType (.array base (size.bind draft.fold))).run draft
    size.toList.map (fun text => { text, draft }) ++ declaratorSizes type.1 params inner type.2
  | .function list variadic inner, draft =>
    let read := (enterParams list).run draft
    let params := read.2.withoutVoid read.1
    let type := (addType (.function base (params.map (·.type)) variadic)).run read.2
    paramsSizes list draft ++ declaratorSizes type.1 params inner type.2
  | _, _ => []

def paramsSizes : List Param → Draft → List SizeReading
  | [], _ => []
  | param :: rest, draft => paramSizes param draft ++ paramsSizes rest ((enterParam param).run draft).2

def paramSizes : Param → Draft → List SizeReading
  | .mk _ base declarator, draft =>
    let type := (enterType false base).run draft
    typeSizes base draft ++ declaratorSizes type.1 [] declarator type.2

/-- The sizes in a statement or expression. A type name by itself has no holder. -/
def exprSizes : Expr → Draft → List SizeReading
  | .scope _ children, draft => exprsSizes children draft.enterScope
  | .group _ children, draft => exprsSizes children draft
  | .declaration extent declaration, draft =>
    (declarationSizes declaration { draft with span := draft.spanOf extent }).map (·.inTree true)
  | .call _ function arguments, draft =>
    match draft.macroCallee? function with
    | some _ => exprsSizes arguments draft
    | none => exprSizes function draft ++ exprsSizes arguments ((enterExpr function).run draft).2
  | .member _ argument, draft => exprSizes argument draft
  | .typeName _ base declarator, draft =>
    let type := (enterType false base).run draft
    ((typeSizes base draft ++ declaratorSizes type.1 [] declarator type.2).filter (·.holder.isSome)).map
      (·.inTree false)
  | .other _ children, draft => exprsSizes children draft
  | _, _ => []

def exprsSizes : List Expr → Draft → List SizeReading
  | [], _ => []
  | expr :: rest, draft => exprSizes expr draft ++ exprsSizes rest ((enterExpr expr).run draft).2

def declarationSizes : Declaration → Draft → List SizeReading
  | .objects storage isInline base declarators, draft =>
    let type := (enterType declarators.isEmpty base).run draft
    typeSizes base draft ++ objectsSizes storage isInline type.1 declarators type.2
  | .typedefs base declarators, draft =>
    let type := (enterType false base).run draft
    typeSizes base draft ++ typedefsSizes type.1 declarators type.2
  | .tag spec, draft => typeSizes spec draft

def objectsSizes (storage : StorageClass) (isInline : Bool) (base : TypeId) :
    List InitDeclarator → Draft → List SizeReading
  | [], _ => []
  | declarator :: rest, draft =>
    objectSizes storage isInline base declarator draft ++
      objectsSizes storage isInline base rest ((enterObject storage isInline base declarator).run draft).2

def objectSizes (storage : StorageClass) (isInline : Bool) (base : TypeId) : InitDeclarator → Draft → List SizeReading
  | .mk full bare declarator init, draft =>
    let typed := (enterDeclarator base [] declarator).run draft
    match typed.1.name with
    | none => (declaratorSizes base [] declarator draft).filter (·.holder.isSome)
    | some (name, extent) =>
      let made := (declareObject storage isInline full bare name extent typed.1.type).run typed.2
      (declaratorSizes base [] declarator draft ++ exprSizes init made.2).map (·.adopt made.1)

def typedefsSizes (base : TypeId) : List InitDeclarator → Draft → List SizeReading
  | [], _ => []
  | declarator :: rest, draft =>
    typedefSizes base declarator draft ++ typedefsSizes base rest ((enterTypedef base declarator).run draft).2

def typedefSizes (base : TypeId) : InitDeclarator → Draft → List SizeReading
  | .mk full _ declarator _, draft =>
    let typed := (enterDeclarator base [] declarator).run draft
    match typed.1.name with
    | none => (declaratorSizes base [] declarator draft).filter (·.holder.isSome)
    | some (name, extent) =>
      let made := (declareTypedef full name extent typed.1.type).run typed.2
      (declaratorSizes base [] declarator draft).map (·.adopt made.1)

end

end Drafting

namespace Program

/-- One of the types that a type is made of is an array of a size. -/
def HasArray (program : Program) (type : TypeId) (size : Option Int64) : Prop :=
  ∃ part element, Relation.ReflTransGen program.HasPart type part ∧ program.type part = .array element size

def TypesStay (before after : Program) : Prop :=
  ∀ id < before.types.size, id < after.types.size ∧ after.type id = before.type id

variable {before middle after : Program}

theorem TypesStay.of_eq (same : after.types = before.types) : TypesStay before after := by
  intro id inside
  exact ⟨same ▸ inside, by rw [Program.type, same, ← Program.type]⟩

theorem TypesStay.push (program : Program) (type : CType) :
    TypesStay program { program with types := program.types.push type } := by
  intro id inside
  refine ⟨by simp only [Array.size_push]; exact Nat.lt_succ_of_lt inside, ?_⟩
  simp only [Program.type, Array.getD_eq_getD_getElem?, Array.getElem?_push, if_neg (Nat.ne_of_lt inside)]

theorem TypesStay.trans (first : TypesStay before middle) (second : TypesStay middle after) :
    TypesStay before after := by
  intro id inside
  obtain ⟨known, same⟩ := first id inside
  obtain ⟨later, last⟩ := second id known
  exact ⟨later, last.trans same⟩

structure Keeps (before after : Program) : Prop where
  size : before.decls.size ≤ after.decls.size
  context : ∀ id < before.decls.size, (after.decl id).context = (before.decl id).context
  declaredTypes : ∀ id < before.decls.size, ∀ type ∈ (before.decl id).kind.declaredTypes,
    type ∈ (after.decl id).kind.declaredTypes
  types : before.TypesStay after

theorem Keeps.of_decl (size : before.decls.size ≤ after.decls.size)
    (decl : ∀ id < before.decls.size, after.decl id = before.decl id) (types : before.TypesStay after) :
    before.Keeps after := by
  refine ⟨size, ?_, ?_, types⟩
  · intro id inside
    rw [decl id inside]
  · intro id inside type listed
    rwa [decl id inside]

theorem Keeps.trans (first : before.Keeps middle) (second : middle.Keeps after) : before.Keeps after where
  size := first.size.trans second.size
  context id inside := (second.context id (inside.trans_le first.size)).trans (first.context id inside)
  declaredTypes id inside type listed :=
    second.declaredTypes id (inside.trans_le first.size) type (first.declaredTypes id inside type listed)
  types := first.types.trans second.types

theorem keeps_modifyDecl {program : Program} {id : DeclId} {change : Decl → Decl}
    (context : ∀ decl, (change decl).context = decl.context)
    (declared : ∀ type ∈ (program.decl id).kind.declaredTypes, type ∈ (change (program.decl id)).kind.declaredTypes) :
    program.Keeps (program.modifyDecl id change) := by
  refine ⟨by simp, ?_, ?_, .of_eq rfl⟩
  · intro other _
    rw [decl_modifyDecl]
    split
    · next same => rw [context, same.1]
    · rfl
  · intro other _ type listed
    rw [decl_modifyDecl]
    split
    · next same => exact declared type (same.1 ▸ listed)
    · exact listed

theorem reaches_of_stay {first second : TypeId} (stay : TypesStay before after)
    (reached : Relation.ReflTransGen before.HasPart first second) :
    Relation.ReflTransGen after.HasPart first second := by
  refine Relation.ReflTransGen.mono (fun outer inner part => ?_) _ _ reached
  -- A type outside the table has no parts.
  have inside : outer < before.types.size := by
    by_contra outside
    rw [HasPart, before.type_of_size_le (Nat.not_lt.mp outside)] at part
    cases part
  rw [HasPart, (stay outer inside).2]
  exact part

theorem HasArray.stay {type : TypeId} {size : Option Int64} (stay : TypesStay before after)
    (found : before.HasArray type size) : after.HasArray type size := by
  obtain ⟨part, element, reached, array⟩ := found
  have inside : part < before.types.size := by
    by_contra outside
    rw [before.type_of_size_le (Nat.not_lt.mp outside)] at array
    cases array
  exact ⟨part, element, reaches_of_stay stay reached, by rw [(stay part inside).2, array]⟩

theorem HasArray.within {outer type : TypeId} {size : Option Int64} {program : Program}
    (reached : Relation.ReflTransGen program.HasPart outer type) (found : program.HasArray type size) :
    program.HasArray outer size := by
  obtain ⟨part, element, inner, array⟩ := found
  exact ⟨part, element, reached.trans inner, array⟩

theorem type_addType (program : Program) (type : CType) :
    (program.addType type).2.type (program.addType type).1 = type := by
  unfold addType
  split
  · next id found =>
    obtain ⟨inside, same, -⟩ := Array.findIdx?_eq_some_iff_getElem.mp found
    simp only [Program.type, Array.getD_eq_getD_getElem?, Array.getElem?_eq_getElem inside, Option.getD_some]
    exact beq_iff_eq.mp same
  · simp [Program.type]

end Program

namespace Draft

variable {before after : Draft}

theorem Step.typesStay {base : Nat} (step : Step base before after) : before.program.TypesStay after.program := by
  cases step with
  | frame | enter | leave | fileTag | revise => exact .of_eq rfl
  | intern type named => exact .push before.program type
  | declare decl previous => exact .of_eq (by cases previous <;> rfl)
  | ordinary => exact .of_eq (by rw [bindOrdinary_program])
  | tag => exact .of_eq (by rw [bindTag_program])

theorem Steps.typesStay (steps : before.Steps after) : before.program.TypesStay after.program := by
  induction steps with
  | refl => exact .of_eq rfl
  | tail _ step ih => exact ih.trans step.typesStay

structure Grows (before after : Draft) : Prop where
  size : before.program.decls.size ≤ after.program.decls.size
  decl : ∀ id < before.program.decls.size, after.program.decl id = before.program.decl id
  types : before.program.TypesStay after.program
  function : after.function = before.function

theorem Steps.grows (steps : before.Steps after) (function : after.function = before.function) : before.Grows after :=
  ⟨steps.size_le, fun _ => steps.decl_of_lt, steps.typesStay, function⟩

theorem Grows.refl : before.Grows before :=
  Steps.refl.grows rfl

theorem Grows.trans {middle : Draft} (first : before.Grows middle) (second : middle.Grows after) :
    before.Grows after where
  size := first.size.trans second.size
  decl id inside := (second.decl id (inside.trans_le first.size)).trans (first.decl id inside)
  types := first.types.trans second.types
  function := second.function.trans first.function

theorem Grows.keeps (grows : before.Grows after) : before.program.Keeps after.program :=
  .of_decl grows.size grows.decl grows.types

@[simp] theorem bindOrdinary_function (draft : Draft) (name : String) (id : DeclId) :
    (draft.bindOrdinary name id).function = draft.function := by
  unfold bindOrdinary modifyInnermost; split <;> rfl

@[simp] theorem bindTag_function (draft : Draft) (name : String) (id : DeclId) :
    (draft.bindTag name id).function = draft.function := by
  unfold bindTag modifyInnermost; split <;> rfl

end Draft

namespace Drafting

/-- A declaration was made since a draft, in the function at hand, and an array of the size is part of its type. -/
structure Holds (before after : Draft) (size : Option Int64) (id : DeclId) : Prop where
  since : before.program.decls.size ≤ id
  inside : id < after.program.decls.size
  context : (after.program.decl id).context = before.function
  sized : ∃ type ∈ (after.program.decl id).kind.declaredTypes, after.program.HasArray type size

/-- Reading from one draft to another kept some sizes: each in the type of its holder, or in one of some types as long
as it has none. -/
structure Settled (before after : Draft) (types : List TypeId) (readings : List SizeReading) : Prop where
  grows : before.Grows after
  held : ∀ reading ∈ readings, ∀ id ∈ reading.holder, Holds before after reading.size id
  own : ∀ reading ∈ readings, reading.holder = none → ∃ type ∈ types, after.program.HasArray type reading.size

section Settled

variable {before middle after : Draft} {types others : List TypeId} {readings more : List SizeReading}

theorem Settled.quiet (grows : before.Grows after) : Settled before after types [] :=
  ⟨grows, by simp, by simp⟩

theorem Holds.later {size : Option Int64} {id : DeclId} (held : Holds before middle size id)
    (keeps : middle.program.Keeps after.program) : Holds before after size id := by
  obtain ⟨type, declared, found⟩ := held.sized
  refine ⟨held.since, held.inside.trans_le keeps.size, ?_, type, ?_, found.stay keeps.types⟩
  · rw [keeps.context id held.inside, held.context]
  · exact keeps.declaredTypes id held.inside type declared

theorem Settled.append (first : Settled before middle types readings) (second : Settled middle after others more) :
    Settled before after (types ++ others) (readings ++ more) := by
  refine ⟨first.grows.trans second.grows, ?_, ?_⟩
  · intro reading member id held
    rcases List.mem_append.mp member with member | member
    · exact (first.held reading member id held).later second.grows.keeps
    · have inner := second.held reading member id held
      exact ⟨first.grows.size.trans inner.since, inner.inside, inner.context.trans first.grows.function, inner.sized⟩
  · intro reading member free
    rcases List.mem_append.mp member with member | member
    · obtain ⟨type, listed, found⟩ := first.own reading member free
      exact ⟨type, List.mem_append_left _ listed, found.stay second.grows.types⟩
    · obtain ⟨type, listed, found⟩ := second.own reading member free
      exact ⟨type, List.mem_append_right _ listed, found⟩

theorem Settled.later (settled : Settled before middle types readings) (grows : middle.Grows after) :
    Settled before after types readings := by
  have joined := settled.append (.quiet grows : Settled middle after [] [])
  rwa [List.append_nil, List.append_nil] at joined

theorem Settled.earlier (grows : before.Grows middle) (settled : Settled middle after types readings) :
    Settled before after types readings :=
  (.quiet grows : Settled before middle [] []).append settled

theorem Settled.within (settled : Settled before after types readings)
    (parts : ∀ type ∈ types, ∃ outer ∈ others, Relation.ReflTransGen after.program.HasPart outer type) :
    Settled before after others readings := by
  refine { settled with own := fun reading member free => ?_ }
  obtain ⟨type, listed, found⟩ := settled.own reading member free
  obtain ⟨outer, present, reached⟩ := parts type listed
  exact ⟨outer, present, found.within reached⟩

/-- A declaration adopts the sizes in its types that belong to no other one. -/
theorem Settled.adopt (settled : Settled before after types readings) {id : DeclId}
    (since : before.program.decls.size ≤ id) (inside : id < after.program.decls.size)
    (context : (after.program.decl id).context = before.function)
    (declared : ∀ type ∈ types, type ∈ (after.program.decl id).kind.declaredTypes) :
    Settled before after others (readings.map (·.adopt id)) := by
  refine ⟨settled.grows, ?_, ?_⟩
  · intro reading member holder held
    obtain ⟨reading, present, rfl⟩ := List.mem_map.mp member
    cases free : reading.holder with
    | none =>
      obtain ⟨type, listed, found⟩ := settled.own reading present free
      obtain rfl : id = holder := by simpa [SizeReading.adopt, free] using held
      exact ⟨since, inside, context, type, declared type listed, found⟩
    | some known =>
      obtain rfl : known = holder := by simpa [SizeReading.adopt, free] using held
      exact settled.held reading present known free
  · intro reading member free
    obtain ⟨reading, -, rfl⟩ := List.mem_map.mp member
    cases held : reading.holder <;> simp [SizeReading.adopt, held] at free

theorem Settled.revise (settled : Settled before middle types readings) {id : DeclId} {change : Decl → Decl}
    (since : before.program.decls.size ≤ id) (keeps : middle.program.Keeps (middle.program.modifyDecl id change)) :
    Settled before { middle with program := middle.program.modifyDecl id change } types readings := by
  refine ⟨⟨settled.grows.size.trans keeps.size, fun old inside => ?_, settled.grows.types, settled.grows.function⟩,
    fun reading member holder held => (settled.held reading member holder held).later keeps, settled.own⟩
  have other : old ≠ id := Nat.ne_of_lt (inside.trans_le since)
  rw [← settled.grows.decl old inside, Program.decl_modifyDecl, if_neg fun same => other same.1]

theorem Settled.filter (settled : Settled before after types readings) :
    Settled before after others (readings.filter (·.holder.isSome)) := by
  refine ⟨settled.grows, ?_, ?_⟩
  · exact fun reading member => settled.held reading (List.mem_filter.mp member).1
  · intro reading member free
    have held := (List.mem_filter.mp member).2
    rw [free] at held
    cases held

theorem Settled.inTree (settled : Settled before after types readings) (isLocal : Bool) :
    Settled before after types (readings.map (·.inTree isLocal)) := by
  refine ⟨settled.grows, ?_, ?_⟩ <;> intro reading member <;>
    obtain ⟨reading, present, rfl⟩ := List.mem_map.mp member
  · exact settled.held reading present
  · exact settled.own reading present

end Settled

end Drafting

end Excerpt
