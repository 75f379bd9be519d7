import Excerpt.Proofs.Draft.Numbering
import Excerpt.Proofs.Draft.Units
import Excerpt.Proofs.Program.Timeline

/-!
The invariant of a unit, whatever its files and their trees.
-/

namespace Excerpt

def StmtKind.InTables (program : Program) : StmtKind → Prop
  | .declRef id _ => id < program.decls.size
  | .localDecl id => id < program.decls.size
  | .typeRef type => type < program.types.size
  | _ => True

def ItemKind.InTables (program : Program) : ItemKind → Prop
  | .decls members => ∀ id ∈ members, id < program.decls.size
  | .directive id => id < program.macros.size
  | .inclusion id => id < program.includes.size
  | .other => True

structure DeclKind.InTables (program : Program) (kind : DeclKind) : Prop where
  types : ∀ type ∈ kind.declaredTypes, type < program.types.size
  fields : ∀ isUnion fields complete, kind = .record isUnion fields complete →
    ∀ field ∈ fields, field.span.file < program.files.size
  constants : ∀ constants complete, kind = .enumeration constants complete → ∀ id ∈ constants, id < program.decls.size
  owner : ∀ value owner init, kind = .enumConstant value owner init → owner < program.decls.size
  body : ∀ body, kind.body? = some body → ∀ node ∈ body.preorder,
    node.span.file < program.files.size ∧ node.kind.InTables program

structure Decl.InTables (program : Program) (decl : Decl) : Prop where
  kind : decl.kind.InTables program
  span : decl.span.file < program.files.size
  seq : decl.pos.seq < program.items.size
  declarator : ∀ spans, decl.declarator = some spans → spans.full.file < program.files.size ∧
    spans.bare.file < program.files.size ∧ spans.name.file < program.files.size
  context : ∀ function, decl.context = some function → function < program.decls.size
  item : decl.item < program.items.size
  chain : decl.chain < program.chains.size

namespace Program

structure InTables (program : Program) : Prop where
  files : ∀ id : Nat, id < program.files.size → ∀ k, (program.file id).includedBy = some k → k < program.includes.size
  items : ∀ id : Nat, id < program.items.size → (program.item id).file < program.files.size ∧
    (program.item id).span.file < program.files.size ∧ (program.item id).kind.InTables program
  decls : ∀ id : Nat, id < program.decls.size → (program.decl id).InTables program
  types : ∀ id : Nat, id < program.types.size → (∀ part ∈ (program.type id).parts, part < program.types.size) ∧
    ∀ decl, (program.type id).named? = some decl → decl < program.decls.size
  chains : ∀ chain : Nat, chain < program.chains.size → ∀ id ∈ program.chain chain, id < program.decls.size
  macros : ∀ id : Nat, id < program.macros.size → (program.directive id).span.file < program.files.size ∧
    (program.directive id).pos.seq < program.items.size ∧ (program.directive id).item < program.items.size
  uses : ∀ occurrence ∈ program.uses, occurrence.pos.seq < program.items.size ∧
    occurrence.span.file < program.files.size
  includes : ∀ k : Nat, k < program.includes.size → (program.inclusion k).item < program.items.size ∧
    (∀ file, (program.inclusion k).file = some file → file < program.files.size) ∧
    ∀ parent, (program.inclusion k).parent = some parent → parent < program.includes.size

structure WellFormed (program : Program) : Prop where
  inTables : program.InTables
  /-- Chains divide the declarations: each holds those that name it, in order, and at least one. -/
  chains : ∀ chain : Nat, chain < program.chains.size → program.chain chain ≠ [] ∧
    (program.chain chain).Pairwise (· < ·) ∧
    ∀ id : Nat, id ∈ program.chain chain ↔ id < program.decls.size ∧ (program.decl id).chain = chain
  ascending : ∀ early late : Nat, early ≤ late → late < program.decls.size →
    (program.decl early).item ≤ (program.decl late).item
  /-- An item lists its declarations at file scope, in order; without any it is of another kind. -/
  members : ∀ id : Nat, id < program.items.size → ∀ members, (program.item id).kind = .decls members ↔
    members ≠ [] ∧ members = (List.range program.decls.size).filter fun decl =>
      (program.decl decl).item == id && (program.decl decl).isFileScope
  /-- A declaration at block scope belongs to a function before it in the same item. -/
  contexts : ∀ id : Nat, id < program.decls.size → ∀ function, (program.decl id).context = some function →
    function < id ∧ (program.decl function).kind.isFunction = true ∧
      (program.decl function).item = (program.decl id).item
  places : ∀ id : Nat, id < program.decls.size →
    (program.item (program.decl id).pos.seq).file = (program.decl id).span.file
  tags : ∀ type decl, program.type type = .record decl ∨ program.type type = .enumeration decl →
    (program.decl decl).kind.isTag = true
  typedefs : ∀ type decl, program.type type = .typedef decl →
    ∃ underlying, (program.decl decl).kind = .typedef underlying
  owners : ∀ id : Nat, id < program.decls.size → ∀ value owner init,
    (program.decl id).kind = .enumConstant value owner init →
      ∃ constants complete, (program.decl owner).kind = .enumeration constants complete
  directives : ∀ early late : Nat, early < late → late < program.macros.size →
    (program.directive early).pos.before (program.directive late).pos = true
  uses : program.uses.Pairwise fun first second => first.pos.atOrBefore second.pos = true

section Laid

variable {nesting : Nesting} {program : Program} (laid : program.Laid nesting)
include laid

theorem Laid.members_eq {id : Nat} (known : id < program.items.size) (members : List DeclId) :
    (program.item id).kind = .decls members ↔ members ≠ [] ∧ members =
      (List.range program.decls.size).filter fun decl =>
        (program.decl decl).item == id && (program.decl decl).isFileScope := by
  have listed : ∀ decl : Nat, decl ∈ (List.range program.decls.size).filter (fun decl =>
      (program.decl decl).item == id && (program.decl decl).isFileScope) ↔
        decl < program.decls.size ∧ (program.decl decl).item = id ∧ (program.decl decl).context = none := by
    intro decl
    simp [Decl.isFileScope]
  constructor
  · intro kind
    have same := eq_of_ascending (laid.members_ascending known kind) (List.pairwise_lt_range.filter _)
      fun decl => (laid.mem_members known kind).trans (listed decl).symm
    obtain ⟨first, limit, own⟩ := laid.items id known
    exact ⟨((own.members members).mp kind).1, same⟩
  · intro both
    obtain ⟨filled, same⟩ := both
    obtain ⟨decl, member⟩ := List.exists_mem_of_ne_nil members filled
    rw [same] at member
    obtain ⟨inside, item, outer⟩ := (listed decl).mp member
    obtain ⟨others, kind, -⟩ := laid.exists_members inside outer
    rw [item] at kind
    rw [kind, same, eq_of_ascending (laid.members_ascending known kind) (List.pairwise_lt_range.filter _)
      fun decl => (laid.mem_members known kind).trans (listed decl).symm]

theorem Laid.context {id : Nat} (known : id < program.decls.size) {function : DeclId}
    (inner : (program.decl id).context = some function) : function < id ∧
      (program.decl function).kind.isFunction = true ∧ (program.decl function).item = (program.decl id).item := by
  obtain ⟨-, first, limit, own, since, below⟩ := laid.holds known
  obtain ⟨outer, sits, facts⟩ := own.sits id since below
  rcases sits.context with same | hidden
  · obtain ⟨after, before, isFunction⟩ := facts function (same.symm.trans inner)
    obtain ⟨_, around, -⟩ := own.sits function after (Nat.lt_trans before below)
    exact ⟨before, isFunction, around.item⟩
  · rw [hidden.1] at inner
    cases inner

theorem Laid.file {id : Nat} (known : id < program.items.size) : (program.item id).file < program.files.size ∧
    (program.item id).span.file = (program.item id).file := by
  obtain ⟨_, _, own⟩ := laid.items id known
  exact ⟨own.file, congrArg Span.file own.span⟩

theorem Laid.span_file {id : Nat} (known : id < program.decls.size) :
    (program.decl id).span.file = (program.item (program.decl id).item).file := by
  obtain ⟨own, -, lies⟩ := laid.place known
  exact congrArg Span.file lies.span

theorem Laid.spans_file {id : Nat} (known : id < program.decls.size) {spans : DeclaratorSpans}
    (named : (program.decl id).declarator = some spans) : spans.full.file = (program.item (program.decl id).item).file ∧
      spans.bare.file = (program.item (program.decl id).item).file ∧
        spans.name.file = (program.item (program.decl id).item).file := by
  obtain ⟨own, -, lies⟩ := laid.place known
  obtain ⟨full, bare, name, lie, -⟩ := lies.declarator spans named
  rw [lie.parts]
  exact ⟨rfl, rfl, rfl⟩

theorem Laid.node {id : Nat} (known : id < program.decls.size) {body node : Stmt}
    (found : (program.decl id).kind.body? = some body) (member : node ∈ body.preorder) :
    node.span.file = (program.item (program.decl id).item).file ∧
      (∀ decl spelled, node.kind = .declRef decl spelled → decl < program.decls.size) ∧
        ∀ decl, node.kind = .localDecl decl → decl < program.decls.size := by
  obtain ⟨own, -, lies⟩ := laid.place known
  obtain ⟨extent, -, span, facts, -⟩ := lies.body body found node member
  refine ⟨congrArg Span.file span, fun decl spelled kind => ?_, fun decl kind => ?_⟩
  · rw [kind] at facts
    exact facts
  · rw [kind] at facts
    exact facts.1

end Laid

section Opened

variable {known : Document → Prop} {program : Program} {openings : List Opening}
  (opened : program.Opened known openings)
include opened

theorem Opened.decl_formed {id : Nat} (inside : id < program.decls.size) : ∃ scene : Scene,
    scene.file = (program.item (program.decl id).item).file ∧ (program.decl id).kind.Formed scene program := by
  obtain ⟨opening, member, item, -⟩ := opened.exists_opening inside
  have allowed : Surface.Spelled (opening.scene fun _ _ => True).Allows opening.item.form.names :=
    fun _ _ _ _ => trivial
  refine ⟨opening.scene fun _ _ => True, ?_, opened.formed inside member item.symm allowed⟩
  rw [← item, (opened.lasts opening member).file]
  rfl

theorem Opened.use_place {occurrence : MacroUse} (used : occurrence ∈ program.uses) :
    occurrence.pos.seq < program.items.size ∧ occurrence.span.file = (program.item occurrence.pos.seq).file := by
  obtain ⟨opening, member, own⟩ := opened.uses occurrence used
  have lasts := opened.lasts opening member
  obtain ⟨-, _, _, _, -, -, -, rfl⟩ := Opening.mem_uses.mp own
  exact ⟨lasts.inside, lasts.file.symm⟩

theorem Opened.exists_wrote {id : Nat} (inside : id < program.macros.size) :
    ∃ opening ∈ openings, opening.Wrote (program.directive id) :=
  opened.relays.directive.2 id (Nat.zero_le id) inside

theorem Opened.directive_file {id : Nat} (inside : id < program.macros.size) :
    (program.directive id).span.file = (program.item (program.directive id).item).file := by
  obtain ⟨opening, member, wrote⟩ := opened.exists_wrote inside
  rw [wrote.span, wrote.item, (opened.lasts opening member).file, (opened.sound opening member).span]
  rfl

end Opened

theorem sort_eq_typeName {kind : DeclKind} (sort : kind.sort = .typeName) :
    ∃ underlying, kind = .typedef underlying := by
  cases kind with
  | typedef underlying => exact ⟨underlying, rfl⟩
  | function | var | record | enumeration | enumConstant => cases sort

theorem eq_enumeration {kind : DeclKind} (isEnumeration : kind.isEnumeration = true) :
    ∃ constants complete, kind = .enumeration constants complete := by
  cases kind with
  | enumeration constants complete => exact ⟨constants, complete, rfl⟩
  | function | var | record | enumConstant | typedef => cases isEnumeration

theorem TypesFormed.type_formed {program : Program} (formed : program.TypesFormed) (id : TypeId) :
    (program.type id).Formed program := by
  by_cases inside : id < program.types.size
  · exact formed id inside
  · rw [program.type_of_size_le (Nat.not_lt.mp inside)]
    trivial

/-- A type outside the table is made of nothing, so every type has its parts in the table. -/
theorem TypesFormed.parts {program : Program} (formed : program.TypesFormed) (id : TypeId) :
    (∀ part ∈ (program.type id).parts, part < program.types.size) ∧
      ∀ decl, (program.type id).named? = some decl → decl < program.decls.size := by
  have own := formed.type_formed id
  cases same : program.type id with
  | builtin | unresolved => exact ⟨fun _ none => (by cases none), fun _ none => (by cases none)⟩
  | pointer | array =>
    rw [same] at own
    exact ⟨fun part member => List.mem_singleton.mp member ▸ own, fun _ none => (by cases none)⟩
  | function result params variadic =>
    rw [same] at own
    refine ⟨fun part member => ?_, fun _ none => (by cases none)⟩
    rcases List.mem_append.mp member with member | member
    · exact own.2 part (List.mem_reverse.mp member)
    · exact List.mem_singleton.mp member ▸ own.1
  | record decl | enumeration decl | typedef decl =>
    rw [same] at own
    refine ⟨fun _ none => (by cases none), fun other found => ?_⟩
    cases found
    exact lt_size_of_sort own (by decide)

section Document

variable (files : FileSystem) (search : SearchPath) (path : String) (document : Document)

theorem ofDocument_laidFree : (ofDocument files search path document).Laid .free :=
  ofDocument_laid (fun _ _ _ => trivial) search path trivial

/-- A declaration was made by an item, whose code made it well formed, and it has not changed since. -/
theorem ofDocument_declInTables (id : Nat) (inside : id < (ofDocument files search path document).decls.size) :
    ((ofDocument files search path document).decl id).InTables (ofDocument files search path document) := by
  have laid := ofDocument_laidFree files search path document
  have consistent := ofDocument_consistent files search path document
  obtain ⟨scene, file, formed⟩ := (ofDocument_opened files search path document).decl_formed inside
  generalize ofDocument files search path document = program at inside laid consistent file formed
  have item := (laid.holds inside).1
  have known := (laid.file item).1
  refine ⟨⟨formed.types, fun _ _ _ same field member => ?_, fun constants complete same constant member => ?_,
    fun value owner init same => ?_, fun body found node member => ⟨?_, ?_⟩⟩, ?_, ?_, fun spans named => ?_,
    fun function inner => ?_, item, consistent.chain_lt inside⟩
  · rw [formed.fields _ _ _ same field member, file]
    exact known
  · exact lt_size_of_isEnumConstant (consistent.constants id constants complete same constant member)
  · exact lt_size_of_sort (DeclKind.sort_of_isEnumeration (formed.owner value owner init same)) (by decide)
  · rw [(laid.node inside found member).1]
    exact known
  · obtain ⟨-, references, locals⟩ := laid.node inside found member
    cases kind : node.kind with
    | declRef decl spelled => exact references decl spelled kind
    | localDecl decl => exact locals decl kind
    | typeRef type => exact (formed.body body found).types node member type kind
    | block | intLiteral | call | expansion | other => trivial
  · rw [laid.span_file inside]
    exact known
  · rw [laid.seq inside]
    exact item
  · obtain ⟨full, bare, name⟩ := laid.spans_file inside named
    rw [full, bare, name]
    exact ⟨known, known, known⟩
  · exact (laid.context inside inner).1.trans inside

theorem ofDocument_inTables : (ofDocument files search path document).InTables := by
  have decls := ofDocument_declInTables files search path document
  have laid := ofDocument_laidFree files search path document
  have opened := ofDocument_opened files search path document
  have consistent := ofDocument_consistent files search path document
  have unit := ofDocument_unrolled files search path document
  have once := ofDocument_readsOnce files search path document
  generalize ofDocument files search path document = program at decls laid opened consistent unit once
  refine ⟨fun id inside k found => unit.nested.files id k inside found, fun id inside => ?_, decls,
    fun id _ => opened.types.parts id, fun chain _ id member => ((consistent.chains chain id).mp member).1,
    fun id inside => ?_, fun occurrence used => ?_, fun k inside => ?_⟩
  · obtain ⟨file, span⟩ := laid.file inside
    refine ⟨file, span ▸ file, ?_⟩
    cases kind : (program.item id).kind with
    | decls members => exact fun decl member => ((laid.mem_members inside kind).mp member).1
    | directive directive => exact (unit.kinds id directive inside kind).1
    | inclusion k => exact unit.headers id k inside kind
    | other => trivial
  · obtain ⟨place, -, seq⟩ := directive_item unit inside
    rw [opened.directive_file inside, seq]
    exact ⟨(laid.file place).1, place, place⟩
  · obtain ⟨seq, file⟩ := opened.use_place used
    rw [file]
    exact ⟨seq, (laid.file seq).1⟩
  · refine ⟨(unit.inclusion inside).1, fun file found => ((once.headers k file inside).mp found).1,
      fun parent found => ?_⟩
    exact (unit.nested.parents k parent inside found).trans inside

/-- Reading a unit gives well-formed tables, whatever the files and their trees. -/
theorem ofDocument_wellFormed : (ofDocument files search path document).WellFormed := by
  have sorted : (ofDocument files search path document).uses.Pairwise fun first second =>
      first.pos.atOrBefore second.pos = true := by
    apply stableSort_pairwise
    · intro first second
      exact SourcePos.atOrBefore_total first.pos second.pos
    · intro first second third
      exact SourcePos.atOrBefore_trans first.pos second.pos third.pos
  have inTables := ofDocument_inTables files search path document
  have laid := ofDocument_laidFree files search path document
  have opened := ofDocument_opened files search path document
  have consistent := ofDocument_consistent files search path document
  have unit := ofDocument_unrolled files search path document
  have occupied := ofDocument_occupied files search path document
  generalize ofDocument files search path document = program at sorted inTables laid opened consistent unit occupied
  refine ⟨inTables, fun chain inside => ⟨occupied chain inside, consistent.ascending chain, consistent.chains chain⟩,
    laid.ascends, fun id inside => laid.members_eq inside, fun id inside function => laid.context inside,
    fun id inside => ?_, fun type decl either => ?_, fun type decl same => ?_,
      fun id inside value owner init same => ?_,
    fun early late less inside => ?_, sorted⟩
  · rw [laid.seq inside, laid.span_file inside]
  · have formed := opened.types.type_formed type
    rw [DeclKind.isTag_eq, decide_eq_true_eq]
    rcases either with same | same <;> rw [same] at formed <;> exact formed
  · have formed := opened.types.type_formed type
    rw [same] at formed
    exact sort_eq_typeName formed
  · obtain ⟨scene, -, formed⟩ := opened.decl_formed inside
    exact eq_enumeration (formed.owner value owner init same)
  · have ordered := opened.ascends early late less inside
    have early := (directive_item unit (less.trans inside)).2.2
    have late := (directive_item unit inside).2.2
    rw [← early, ← late] at ordered
    simp [SourcePos.before, ordered]

end Document

end Program

end Excerpt
