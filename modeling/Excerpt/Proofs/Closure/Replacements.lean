import Excerpt.Proofs.Closure.ArraySizes
import Excerpt.Proofs.Draft.MacroReferences
import Excerpt.Proofs.Draft.WellFormed
import Excerpt.Proofs.Emission.Fidelity

namespace Excerpt

namespace Session

variable {session : Session} {requested : List String} {closure : Closure}

/-- The names of a replacement were listed when its directive was read, its own name and the parameters left out. -/
theorem IsRead.names_eq (read : session.IsRead) {directive : Nat} (inside : directive < session.program.macros.size)
    {params : Option (List String)} {body : List Char} {names : List String}
    (kind : (session.program.directive directive).kind = .define params body names) :
    names = Draft.replacementNames (session.program.directive directive).name params body := by
  obtain ⟨files, search, path, document, same⟩ := read
  have opened := Program.ofDocument_opened files search path document
  rw [← same] at opened
  obtain ⟨opening, -, wrote⟩ := opened.exists_wrote inside
  have said := wrote.said
  rw [kind] at said
  cases form : opening.item.form with
  | define name params body =>
    rw [form] at said
    cases said
    rfl
  | inclusion | undef | directive | function | declaration | other =>
    rw [form] at said
    cases said

/-- A word in the replacement of a directive names an enum constant at file scope. -/
structure NamesConstant (session : Session) (directive : MacroId) (word : String) (constant owner : DeclId) : Prop where
  text : ∃ params body names, (session.program.directive directive).kind = .define params body names ∧
    word ∈ (identifiers body).map (·.2) ∧ word ∉ params.getD []
  declared : constant ∈ session.program.fileScope word
  owned : session.owner? constant = some owner

/-- A body that is walked refers to a declaration, spelled out or through macros. -/
def RefersTo (session : Session) (requested : List String) (closure : Closure) (constant : DeclId) : Prop :=
  ∃ id ∈ closure.decls, session.isExternalized requested id = false ∧ ∃ body stmt spelled,
    (session.program.decl id).kind.body? = some body ∧ Relation.ReflTransGen session.program.StmtStep body stmt ∧
      stmt.kind = .declRef constant spelled

theorem markedWith_representative {owner enumeration : DeclId}
    (represents : session.program.representative? (session.program.decl owner).chain = some enumeration) :
    session.MarkedWith owner enumeration :=
  ⟨enumeration, .inr represents, Program.representative_mem represents, Nat.le_refl enumeration⟩

theorem kind_of_owner {constant owner : DeclId} (owned : session.owner? constant = some owner) :
    ∃ value init, (session.program.decl constant).kind = .enumConstant value owner init := by
  unfold owner? at owned
  split at owned
  · next value other init kind =>
    cases owned
    exact ⟨value, init, kind⟩
  · cases owned

theorem owner_mem_of_refersTo (read : session.IsRead) (found : session.closure requested = .ok closure)
    {word : String} {constant owner enumeration : DeclId} (declared : constant ∈ session.program.fileScope word)
    (owned : session.owner? constant = some owner)
    (represents : session.program.representative? (session.program.decl owner).chain = some enumeration)
    (refers : session.RefersTo requested closure constant) : enumeration ∈ closure.decls := by
  have obeys := closure_obeys read.consistent found
  obtain ⟨listed, placed⟩ := List.mem_filter.mp declared
  have inside := List.mem_range.mp listed
  obtain ⟨value, init, kind⟩ := kind_of_owner owned
  obtain ⟨id, marked, direct, body, stmt, spelled, walked, reached, reference⟩ := refers
  have outer : (session.program.decl constant).isFileScope = true := by
    simp only [Decl.isOrdinaryFileScope, Bool.and_eq_true] at placed
    exact placed.1.1
  have shared : ∃ other ∈ session.program.redecls constant, (session.program.decl other).isFileScope = true :=
    ⟨constant, (read.consistent.chains _ constant).mpr ⟨inside, rfl⟩, outer⟩
  have constantMarked : constant ∈ closure.decls := by
    refine obeys.bodies id marked direct constant ⟨body, stmt, walked, reached, ?_⟩
    rw [reference]
    exact .reference shared (markedWith_self read.consistent inside)
  exact obeys.declarations constant constantMarked enumeration (.owner kind (markedWith_representative represents))

/-- A marked directive marks the enumerations that its replacement names, as far as it lies in expanded text and the
name is not its own, or a walked body refers to the constant. -/
theorem replacement_owner_mem_closure (read : session.IsRead) (found : session.closure requested = .ok closure)
    {directive : MacroId} {word : String} {constant owner enumeration : DeclId} (marked : directive ∈ closure.macros)
    (names : session.NamesConstant directive word constant owner)
    (represents : session.program.representative? (session.program.decl owner).chain = some enumeration)
    (reached : (session.isMacroExpanded directive = true ∧ word ≠ (session.program.directive directive).name) ∨
      session.RefersTo requested closure constant) :
    enumeration ∈ closure.decls := by
  rcases reached with ⟨expanded, other⟩ | refers
  · obtain ⟨params, body, listed, kind, written, free⟩ := names.text
    have inside := (isDefine_of_marked read found directive marked).1
    have searched : word ∈ (session.program.directive directive).names := by
      rw [MacroDirective.names, kind, read.names_eq inside kind]
      exact Draft.mem_replacementNames.mpr ⟨written, other, free⟩
    exact (closure_obeys read.consistent found).replacements directive marked expanded enumeration
      ⟨word, searched, constant, names.declared, owner, names.owned, markedWith_representative represents⟩
  · exact owner_mem_of_refersTo read found names.declared names.owned represents refers

def constantHeader : FileSystem :=
  ⟨[(["h.h"], .document (Written.document [("", .define "H" "A")]))], []⟩

/-- The header is kept. One enumeration is named through it in a body, another one in the size of an array. -/
def namedConstants : Session :=
  ({ keepIncludes := true } : Config).session (.ofDocument constantHeader ⟨[]⟩ "unit.c"
    (Written.document
      [("", .inclusion "\"h.h\""), ("", .valuedEnumeration "a" "A" "4"), ("", .token "';" ";"),
        ("\n", .valuedEnumeration "b" "B" "5"), ("", .token "';" ";"), ("\n", .define "M" "B"),
        ("", .paddedArray "t" "M" "1"), ("\n", .function "f" (.reference "H")),
        ("\n", .function "g" (.element "t" "0"))]))

set_option maxRecDepth 10000 in
theorem replacement_owner_namedConstants : ∃ closure, namedConstants.closure ["f", "g"] = .ok closure ∧
    0 ∈ closure.macros ∧ namedConstants.isMacroExpanded 0 = false ∧ namedConstants.NamesConstant 0 "A" 1 0 ∧
    0 ∈ closure.decls ∧ 1 ∈ closure.macros ∧ namedConstants.NamesConstant 1 "B" 3 2 ∧ 2 ∈ closure.decls := by
  let closure : Closure :=
    { roots := [5, 6], decls := [0, 1, 2, 3, 4, 5, 6], macros := [0, 1], needsUndef := [], renames := []
      passSizes := [5, 5, 7] }
  have facts : namedConstants.closure ["f", "g"] = .ok closure ∧ namedConstants.isMacroExpanded 0 = false ∧
      (namedConstants.program.directive 0).kind = .define none ['A'] ["A"] ∧
      1 ∈ namedConstants.program.fileScope "A" ∧ namedConstants.owner? 1 = some 0 ∧
      namedConstants.program.representative? (namedConstants.program.decl 0).chain = some 0 ∧
      (namedConstants.program.directive 1).kind = .define none ['B'] ["B"] ∧
      3 ∈ namedConstants.program.fileScope "B" ∧ namedConstants.owner? 3 = some 2 ∧
      namedConstants.program.representative? (namedConstants.program.decl 2).chain = some 2 ∧
      namedConstants.isMacroExpanded 1 = true ∧ "B" ≠ (namedConstants.program.directive 1).name := by
    decide +kernel
  have body : namedConstants.isExternalized ["f", "g"] 5 = false ∧
      ∃ body ∈ (namedConstants.program.decl 5).kind.body?, ∃ stmt ∈ namedConstants.program.nodes body,
        stmt.kind = .declRef 1 false := by
    decide +kernel
  obtain ⟨found, hidden, firstKind, firstDeclared, firstOwned, firstLast, secondKind, secondDeclared, secondOwned,
      secondLast,
    expanded, other⟩ := facts
  obtain ⟨direct, body, walked, stmt, node, reference⟩ := body
  have read : namedConstants.IsRead := ⟨_, _, _, _, rfl⟩
  have first : namedConstants.NamesConstant 0 "A" 1 0 :=
    ⟨⟨_, _, _, firstKind, by decide, by simp⟩, firstDeclared, firstOwned⟩
  have second : namedConstants.NamesConstant 1 "B" 3 2 :=
    ⟨⟨_, _, _, secondKind, by decide, by simp⟩, secondDeclared, secondOwned⟩
  have refers : namedConstants.RefersTo ["f", "g"] closure 1 :=
    ⟨5, by decide, direct, body, stmt, false, walked, (Program.mem_nodes_iff read.consistent.locals).mp node, reference⟩
  refine ⟨closure, found, by decide, hidden, first, ?_, by decide, second, ?_⟩
  · exact replacement_owner_mem_closure read found (by decide) first firstLast (.inr refers)
  · exact replacement_owner_mem_closure read found (by decide) second secondLast (.inl ⟨expanded, other⟩)

def hiddenReplacement : Session :=
  ({ keepIncludes := true } : Config).session (.ofDocument constantHeader ⟨[]⟩ "unit.c"
    (Written.document
      [("", .inclusion "\"h.h\""), ("", .valuedEnumeration "a" "A" "4"), ("", .token "';" ";"),
        ("\n", .paddedArray "t" "H" "1"), ("\n", .function "f" (.element "t" "0"))]))

def ownConstant : Session :=
  ({} : Config).session (.ofDocument ⟨[], []⟩ ⟨[]⟩ "unit.c"
    (Written.document
      [("", .enumeration "e" "A"), ("", .token "';" ";"), ("\n", .define "A" "A"),
        ("", .function "f" (.reference "A"))]))

set_option maxRecDepth 10000 in
/-- Behind a kept header, and for the name of the macro itself, the enumeration is left out. -/
theorem replacement_owner_missing :
    (∃ closure, hiddenReplacement.closure ["f"] = .ok closure ∧ 0 ∈ closure.macros ∧
      hiddenReplacement.NamesConstant 0 "A" 1 0 ∧ hiddenReplacement.isMacroExpanded 0 = false ∧
      hiddenReplacement.program.representative? (hiddenReplacement.program.decl 0).chain = some 0 ∧ 0 ∉ closure.decls) ∧
    ∃ closure, ownConstant.closure ["f"] = .ok closure ∧ 0 ∈ closure.macros ∧ ownConstant.NamesConstant 0 "A" 1 0 ∧
      ownConstant.isMacroExpanded 0 = true ∧
      ownConstant.program.representative? (ownConstant.program.decl 0).chain = some 0 ∧ 0 ∉ closure.decls := by
  let first : Closure :=
    { roots := [3], decls := [2, 3], macros := [0], needsUndef := [], renames := [], passSizes := [2] }
  have behindHeader : hiddenReplacement.closure ["f"] = .ok first ∧
      (hiddenReplacement.program.directive 0).kind = .define none ['A'] ["A"] ∧
      1 ∈ hiddenReplacement.program.fileScope "A" ∧ hiddenReplacement.owner? 1 = some 0 ∧
      hiddenReplacement.isMacroExpanded 0 = false ∧
      hiddenReplacement.program.representative? (hiddenReplacement.program.decl 0).chain = some 0 := by
    decide +kernel
  let second : Closure :=
    { roots := [2], decls := [2], macros := [0], needsUndef := [], renames := [], passSizes := [1] }
  have ownName : ownConstant.closure ["f"] = .ok second ∧
      (ownConstant.program.directive 0).kind = .define none ['A'] [] ∧
      1 ∈ ownConstant.program.fileScope "A" ∧ ownConstant.owner? 1 = some 0 ∧ ownConstant.isMacroExpanded 0 = true ∧
      ownConstant.program.representative? (ownConstant.program.decl 0).chain = some 0 := by
    decide +kernel
  constructor
  · obtain ⟨found, kind, declared, owned, hidden, last⟩ := behindHeader
    exact ⟨first, found, by decide, ⟨⟨_, _, _, kind, by decide, by simp⟩, declared, owned⟩, hidden, last, by decide⟩
  · obtain ⟨found, kind, declared, owned, expanded, last⟩ := ownName
    exact ⟨second, found, by decide, ⟨⟨_, _, _, kind, by decide, by simp⟩, declared, owned⟩, expanded, last, by decide⟩

end Session

end Excerpt
