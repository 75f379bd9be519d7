import Excerpt.Proofs.Draft.Consistency
import Excerpt.Proofs.Surface.Placement

/-!
Where declarations and bodies lie. Reading a construct adds declarations that lie in it and belong to the item and to
the function at hand, but for the first mention of a tag, which belongs to the file.
-/

namespace Excerpt

theorem Extent.eq_of_inFile {first second : Extent} {file : FileId} (same : first.inFile file = second.inFile file) :
    first = second := by
  cases first
  cases second
  cases same
  rfl

/-- The item that is read, and what it means in its file for an extent to lie inside another. -/
structure Site where
  inside : Extent → Extent → Prop
  nesting : Extent.IsNesting inside
  file : FileId
  item : ItemId

structure Program.Retains (before after : Program) : Prop where
  size : before.decls.size ≤ after.decls.size
  decl : ∀ id : Nat, id < before.decls.size →
    ∃ kind, kind.sort = (before.decl id).kind.sort ∧ after.decl id = { before.decl id with kind }

theorem Draft.Steps.retains {before after : Draft} (steps : before.Steps after) :
    before.program.Retains after.program :=
  ⟨steps.size_le, fun id old => ⟨(before.program.decl id).kind, rfl, steps.decl_of_lt old⟩⟩

/-- What a node in an extent names is known, and what it declares lies in the extent and belongs to the item. -/
def StmtKind.Known (site : Site) (program : Program) (extent : Extent) : StmtKind → Prop
  | .declRef id _ => id < program.decls.size
  | .localDecl id => id < program.decls.size ∧ (program.decl id).item = site.item ∧
      ∃ own, site.inside own extent ∧ (program.decl id).span = own.inFile site.file
  | _ => True

/-- The nodes of a body lie in `outer`, each with those below it. -/
def Stmt.Lies (site : Site) (program : Program) (outer : Extent) (stmt : Stmt) : Prop :=
  ∀ node ∈ stmt.preorder, ∃ extent, site.inside extent outer ∧ node.span = extent.inFile site.file ∧
    node.kind.Known site program extent ∧
    ∀ inner ∈ node.preorder, ∃ own, site.inside own extent ∧ inner.span = own.inFile site.file

section Stmt

variable {site : Site} {program : Program} {outer : Extent}

theorem StmtKind.Known.mono {later : Program} (retains : program.Retains later) {extent : Extent} {kind : StmtKind}
    (known : kind.Known site program extent) : kind.Known site later extent := by
  cases kind with
  | declRef id spelled => exact Nat.lt_of_lt_of_le known retains.size
  | localDecl id =>
    obtain ⟨old, item, own, within, span⟩ := known
    obtain ⟨kind, -, same⟩ := retains.decl id old
    refine ⟨Nat.lt_of_lt_of_le old retains.size, ?_⟩
    rw [same]
    exact ⟨item, own, within, span⟩
  | _ => trivial

theorem Stmt.Lies.mono {later : Program} (retains : program.Retains later) {stmt : Stmt}
    (lies : stmt.Lies site program outer) : stmt.Lies site later outer := by
  intro node member
  obtain ⟨extent, within, span, known, below⟩ := lies node member
  exact ⟨extent, within, span, known.mono retains, below⟩

theorem Stmt.Lies.widen {wider : Extent} (within : site.inside outer wider) {stmt : Stmt}
    (lies : stmt.Lies site program outer) : stmt.Lies site program wider := by
  intro node member
  obtain ⟨extent, inner, rest⟩ := lies node member
  exact ⟨extent, site.nesting.trans inner within, rest⟩

theorem Stmt.lies_node {kind : StmtKind} {extent : Extent} {children : List Stmt} (within : site.inside extent outer)
    (known : kind.Known site program extent) (lie : ∀ child ∈ children, child.Lies site program extent) :
    (Stmt.node kind (extent.inFile site.file) children).Lies site program outer := by
  intro node member
  rcases Stmt.mem_preorder.mp member with rfl | ⟨child, isChild, member⟩
  · refine ⟨extent, within, rfl, known, fun inner below => ?_⟩
    rcases Stmt.mem_preorder.mp below with rfl | ⟨child, isChild, below⟩
    · exact ⟨extent, site.nesting.self within, rfl⟩
    · obtain ⟨own, inside, span, -⟩ := lie child isChild inner below
      exact ⟨own, inside, span⟩
  · exact (lie child isChild).widen within node member

theorem Stmt.Lies.own {stmt : Stmt} (lies : stmt.Lies site program outer) :
    ∃ extent, site.inside extent outer ∧ stmt.span = extent.inFile site.file ∧ stmt.Lies site program extent := by
  obtain ⟨extent, within, span, -, below⟩ := lies stmt (Stmt.mem_preorder.mpr (.inl rfl))
  refine ⟨extent, within, span, fun node member => ?_⟩
  obtain ⟨place, -, nodeSpan, facts⟩ := lies node member
  obtain ⟨own, inside, ownSpan⟩ := below node member
  obtain rfl : place = own := Extent.eq_of_inFile (nodeSpan.symm.trans ownSpan)
  exact ⟨place, inside, nodeSpan, facts⟩

end Stmt

structure DeclaratorSpans.Lie (site : Site) (own full bare name : Extent) (spans : DeclaratorSpans) : Prop where
  parts : spans = ⟨full.inFile site.file, bare.inFile site.file, name.inFile site.file⟩
  fullInside : site.inside full own
  bareInside : site.inside bare full
  nameInside : site.inside name bare

def DeclKind.IsForward (kind : DeclKind) : Prop :=
  kind.isTag = true ∧ kind.isDefinition = false

/-- A declaration lies in `own`, with its declarator and its body; an initializer lies in its declarator. -/
structure Decl.LiesIn (site : Site) (program : Program) (own : Extent) (decl : Decl) : Prop where
  span : decl.span = own.inFile site.file
  offset : Surface.StartsIn site.inside own decl.pos.offset
  body : ∀ stmt, decl.kind.body? = some stmt → stmt.Lies site program own
  declarator : ∀ spans, decl.declarator = some spans → ∃ full bare name, spans.Lie site own full bare name ∧
    ∀ type init, decl.kind = .var type (some init) → init.Lies site program full

structure Decl.Sits (site : Site) (program : Program) (host : Extent) (function : Option DeclId) (decl : Decl) :
    Prop where
  item : decl.item = site.item
  seq : decl.pos.seq = site.item
  context : decl.context = function ∨ decl.context = none ∧ decl.kind.IsForward
  declarator : decl.context = none → decl.kind.sort = .symbol ∨ decl.kind.sort = .typeName →
    decl.declarator.isSome = true
  place : ∃ own, site.inside own host ∧ decl.LiesIn site program own

/-- A function or variable opens its entity or continues one of its name at file scope. -/
def Program.Linked (program : Program) (id : Nat) : Prop :=
  (program.decl id).kind.sort = .symbol →
    (∀ earlier : Nat, earlier < id → (program.decl earlier).chain ≠ (program.decl id).chain) ∨
      ∃ earlier : Nat, earlier < id ∧ (program.decl earlier).chain = (program.decl id).chain ∧
        (program.decl earlier).context = none ∧ (program.decl earlier).name = (program.decl id).name

section Decl

variable {site : Site} {program later : Program}

theorem Program.Linked.mono (retains : program.Retains later) {id : Nat} (old : id < program.decls.size)
    (linked : program.Linked id) : later.Linked id := by
  intro symbol
  obtain ⟨kind, sort, same⟩ := retains.decl id old
  rw [same] at symbol ⊢
  rcases linked (sort ▸ symbol) with opens | ⟨earlier, less, continues⟩
  · refine .inl fun earlier less => ?_
    obtain ⟨_, -, same⟩ := retains.decl earlier (less.trans old)
    rw [same]
    exact opens earlier less
  · refine .inr ⟨earlier, less, ?_⟩
    obtain ⟨_, -, same⟩ := retains.decl earlier (less.trans old)
    rw [same]
    exact continues

theorem Decl.LiesIn.mono (retains : program.Retains later) {own : Extent} {decl : Decl}
    (lies : decl.LiesIn site program own) : decl.LiesIn site later own := by
  refine ⟨lies.span, lies.offset, fun stmt found => (lies.body stmt found).mono retains, fun spans found => ?_⟩
  obtain ⟨full, bare, name, lie, init⟩ := lies.declarator spans found
  exact ⟨full, bare, name, lie, fun type stmt kind => (init type stmt kind).mono retains⟩

theorem Decl.Sits.mono (retains : program.Retains later) {host : Extent} {function : Option DeclId} {decl : Decl}
    (sits : decl.Sits site program host function) : decl.Sits site later host function := by
  obtain ⟨own, within, lies⟩ := sits.place
  exact ⟨sits.item, sits.seq, sits.context, sits.declarator, own, within, lies.mono retains⟩

theorem Decl.Sits.widen {host wider : Extent} (within : site.inside host wider) {function : Option DeclId} {decl : Decl}
    (sits : decl.Sits site program host function) : decl.Sits site program wider function := by
  obtain ⟨own, inner, lies⟩ := sits.place
  exact ⟨sits.item, sits.seq, sits.context, sits.declarator, own, site.nesting.trans inner within, lies⟩

/-- A change that gives declaration `id` a kind of the same sort, with parts that lie in the declaration. -/
structure Program.Revision (site : Site) (program : Program) (id : DeclId) (change : Decl → Decl) (kind : DeclKind) :
    Prop where
  changed : change (program.decl id) = { program.decl id with kind }
  sort : kind.sort = (program.decl id).kind.sort
  forward : (program.decl id).kind.IsForward → kind.IsForward
  body : ∀ stmt own, kind.body? = some stmt → (program.decl id).span = own.inFile site.file → stmt.Lies site program own
  init : ∀ type stmt spans full, kind = .var type (some stmt) → (program.decl id).declarator = some spans →
    spans.full = full.inFile site.file → stmt.Lies site program full

section Revision

variable {id : DeclId} {change : Decl → Decl} {kind : DeclKind} (revision : program.Revision site id change kind)
include revision

theorem Program.Revision.decl_cases (other : DeclId) :
    (program.modifyDecl id change).decl other = program.decl other ∨
      other = id ∧ (program.modifyDecl id change).decl other = { program.decl id with kind } := by
  rw [Program.decl_modifyDecl]
  split
  · next same => exact .inr ⟨same.1, revision.changed⟩
  · exact .inl rfl

theorem Program.Revision.retains : program.Retains (program.modifyDecl id change) := by
  refine ⟨by simp, fun other _ => ?_⟩
  rcases revision.decl_cases other with same | ⟨rfl, same⟩
  · exact ⟨_, rfl, same⟩
  · exact ⟨kind, revision.sort, same⟩

/-- A revision moves nothing: a declaration stays in its place with the parts that it is given. -/
theorem Program.Revision.sits {other : DeclId} {host : Extent} {function : Option DeclId}
    (sits : (program.decl other).Sits site program host function) :
    ((program.modifyDecl id change).decl other).Sits site (program.modifyDecl id change) host function := by
  have retains := revision.retains
  have later := sits.mono retains
  rcases revision.decl_cases other with same | ⟨rfl, same⟩
  · rw [same]
    exact later
  · rw [same]
    obtain ⟨own, within, lies⟩ := later.place
    refine ⟨sits.item, sits.seq, ?_, ?_, own, within, lies.span, lies.offset, ?_, ?_⟩
    · exact sits.context.imp_right fun forwarded => ⟨forwarded.1, revision.forward forwarded.2⟩
    · intro outer symbol
      exact sits.declarator outer (revision.sort ▸ symbol)
    · intro stmt found
      exact (revision.body stmt own found lies.span).mono retains
    · intro spans found
      obtain ⟨full, bare, name, lie, -⟩ := lies.declarator spans found
      refine ⟨full, bare, name, lie, fun type stmt same => ?_⟩
      exact (revision.init type stmt spans full same found (by rw [lie.parts])).mono retains

end Revision

end Decl

namespace Draft

/-- Names at file scope stand for declarations of that name at file scope, and a function body opens a block. -/
structure Bound (draft : Draft) : Prop where
  names : ∀ name id, (name, id) ∈ draft.fileScope.ordinary →
    (draft.program.decl id).name = some name ∧ (draft.program.decl id).context = none
  blocks : draft.function.isSome = true → draft.blocks ≠ []

structure Stands (site : Site) (host : Extent) (draft : Draft) : Prop where
  file : draft.file = site.file
  item : draft.item = site.item
  span : draft.span = host.inFile site.file
  host : site.inside host host
  consistent : draft.Consistent
  bound : draft.Bound

/-- Reading something inside `host` adds declarations that lie there. -/
structure Lays (site : Site) (host : Extent) (before after : Draft) : Prop where
  steps : before.Steps after
  stands : after.Stands site host
  function : after.function = before.function
  blocks : after.blocks.length = before.blocks.length
  sits : ∀ id : Nat, before.program.decls.size ≤ id → id < after.program.decls.size →
    (after.program.decl id).Sits site after.program host before.function
  linked : ∀ id : Nat, before.program.decls.size ≤ id → id < after.program.decls.size → after.program.Linked id

section Lays

variable {site : Site} {host : Extent} {before middle after : Draft}

theorem Lays.refl (stands : before.Stands site host) : before.Lays site host before :=
  ⟨.refl, stands, rfl, rfl, fun _ since known => absurd known (Nat.not_lt.mpr since),
    fun _ since known => absurd known (Nat.not_lt.mpr since)⟩

theorem Lays.trans (first : before.Lays site host middle) (second : middle.Lays site host after) :
    before.Lays site host after := by
  refine ⟨first.steps.trans second.steps, second.stands, second.function.trans first.function,
    second.blocks.trans first.blocks, fun id since known => ?_, fun id since known => ?_⟩
  · by_cases old : id < middle.program.decls.size
    · rw [second.steps.decl_of_lt old]
      exact (first.sits id since old).mono second.steps.retains
    · rw [← first.function]
      exact second.sits id (Nat.not_lt.mp old) known
  · by_cases old : id < middle.program.decls.size
    · exact (first.linked id since old).mono second.steps.retains old
    · exact second.linked id (Nat.not_lt.mp old) known

theorem Stands.ofSteps (stands : before.Stands site host) (steps : before.Steps after) (span : after.span = before.span)
    (function : after.function = before.function) (blocks : after.blocks.length = before.blocks.length)
    (names : ∀ name id, (name, id) ∈ after.fileScope.ordinary → (name, id) ∈ before.fileScope.ordinary ∨
      (after.program.decl id).name = some name ∧ (after.program.decl id).context = none) : after.Stands site host := by
  have layout := steps.sameLayout
  refine ⟨layout.file.trans stands.file, layout.item.trans stands.item, span.trans stands.span, stands.host,
    steps.consistent stands.consistent, ?_, ?_⟩
  · intro name id bound
    rcases names name id bound with bound | new
    · rw [steps.decl_of_lt ((stands.consistent.scopes _ before.fileScope_mem_scopes).ordinary _ bound)]
      exact stands.bound.names name id bound
    · exact new
  · intro inside none
    rw [function] at inside
    rw [none] at blocks
    exact stands.bound.blocks inside (List.eq_nil_of_length_eq_zero blocks.symm)

theorem Lays.ofSteps (stands : before.Stands site host) (steps : before.Steps after) (span : after.span = before.span)
    (function : after.function = before.function) (blocks : after.blocks.length = before.blocks.length)
    (names : after.fileScope.ordinary = before.fileScope.ordinary)
    (size : after.program.decls.size = before.program.decls.size) : before.Lays site host after := by
  refine ⟨steps, stands.ofSteps steps span function blocks fun _ _ bound => .inl (names ▸ bound), function,
    blocks, ?_, ?_⟩
  · intro id since known
    omega
  · intro id since known
    omega

/-- A new declaration lies in the construct that is read, and what it continues is at file scope under its name. -/
theorem Lays.ofDeclare (stands : before.Stands site host) (steps : before.Steps after) {decl : Decl}
    {previous : Option DeclId} (program : after.program = before.program.addDecl decl previous)
    (span : after.span = before.span) (function : after.function = before.function)
    (blocks : after.blocks.length = before.blocks.length)
    (names : ∀ name id, (name, id) ∈ after.fileScope.ordinary → (name, id) ∈ before.fileScope.ordinary ∨
      id = before.program.decls.size ∧ decl.name = some name ∧ decl.context = none)
    (sits : decl.Sits site before.program host before.function)
    (continued : ∀ earlier, previous = some earlier → decl.kind.sort = .symbol →
      ∃ name, decl.name = some name ∧ (name, earlier) ∈ before.fileScope.ordinary) : before.Lays site host after := by
  have new : after.program.decl before.program.decls.size =
      { decl with chain := before.program.nextChain previous } := by
    rw [program, Program.decl_addDecl_size]
  have only : ∀ id : Nat, before.program.decls.size ≤ id → id < after.program.decls.size →
      id = before.program.decls.size := by
    intro id since known
    rw [program, Program.addDecl_size] at known
    omega
  refine ⟨steps, stands.ofSteps steps span function blocks fun name id bound => ?_, function, blocks,
    fun id since known => ?_, fun id since known => ?_⟩
  · rcases names name id bound with bound | ⟨rfl, fresh⟩
    · exact .inl bound
    · rw [new]
      exact .inr fresh
  · rw [only id since known, new]
    obtain ⟨own, within, lies⟩ := sits.place
    have later := lies.mono steps.retains
    exact ⟨sits.item, sits.seq, sits.context, sits.declarator, own, within,
      later.span, later.offset, later.body, later.declarator⟩
  · rw [only id since known]
    intro symbol
    rw [new] at symbol ⊢
    cases found : previous with
    | none =>
      refine .inl fun earlier less => ?_
      rw [steps.decl_of_lt less]
      exact (stands.consistent.program.chain_lt less).ne
    | some earlier =>
      obtain ⟨name, named, bound⟩ := continued earlier found symbol
      have old := (stands.consistent.scopes _ before.fileScope_mem_scopes).ordinary _ bound
      obtain ⟨same, context⟩ := stands.bound.names name earlier bound
      refine .inr ⟨earlier, old, ?_⟩
      rw [steps.decl_of_lt old]
      exact ⟨rfl, context, same.trans named.symm⟩

theorem Lays.revise (lays : before.Lays site host middle) {id : DeclId} {change : Decl → Decl}
    (step : Step before.program.decls.size middle { middle with program := middle.program.modifyDecl id change })
    (kind : DeclKind) (revision : middle.program.Revision site id change kind) :
    before.Lays site host { middle with program := middle.program.modifyDecl id change } := by
  have retains := revision.retains
  have stands := lays.stands
  have names : ∀ name other, (name, other) ∈ middle.fileScope.ordinary →
      ((middle.program.modifyDecl id change).decl other).name = some name ∧
        ((middle.program.modifyDecl id change).decl other).context = none := by
    intro name other bound
    have old := (stands.consistent.scopes _ middle.fileScope_mem_scopes).ordinary _ bound
    obtain ⟨_, -, same⟩ := retains.decl other old
    rw [same]
    exact stands.bound.names name other bound
  refine ⟨lays.steps.tail step, ⟨stands.file, stands.item, stands.span, stands.host, step.consistent stands.consistent,
    names, stands.bound.blocks⟩, lays.function, lays.blocks, fun other new known => ?_, fun other new known => ?_⟩
  · exact revision.sits (lays.sits other new (by simpa using known))
  · have old : other < middle.program.decls.size := by simpa using known
    exact (lays.linked other new old).mono retains old

end Lays

end Draft

end Excerpt
