import Excerpt.Closure.Basic
import Excerpt.Config.Basic
import Excerpt.Proofs.Draft.MacroTable
import Excerpt.Proofs.Draft.Written

namespace Excerpt

namespace Stmt

def Cites (stmt : Stmt) (id : DeclId) : Prop :=
  ∃ node ∈ stmt.preorder, ∃ spelled, node.kind = .declRef id spelled

theorem cites_node {kind : StmtKind} {span : Span} {children : List Stmt} {id : DeclId} :
    (node kind span children).Cites id ↔ (∃ spelled, kind = .declRef id spelled) ∨ ∃ child ∈ children, child.Cites id :=
  exists_mem_preorder fun kind => ∃ spelled, kind = .declRef id spelled

theorem cites_leaf {decl id : DeclId} {spelled : Bool} {span : Span} :
    (leaf (.declRef decl spelled) span).Cites id ↔ decl = id := by
  simp [leaf, cites_node]

end Stmt

namespace MacroDirective

/-- A word of the replacement that is not a parameter. -/
def Mentions (directive : MacroDirective) (word : String) : Prop :=
  ∃ params body names, directive.kind = .define params body names ∧ word ∈ (identifiers body).map (·.2) ∧
    word ∉ params.getD []

/-- The names of a definition are those that its replacement mentions, its own apart. -/
def ListsNames (directive : MacroDirective) : Prop :=
  ∀ word, word ∈ directive.names ↔ directive.Mentions word ∧ word ≠ directive.name

end MacroDirective

namespace Draft

/-- Expanding `id` inside the macros `active` leaves `word` over in the replacement of `leaf`. -/
inductive LeavesOver (draft : Draft) : List MacroId → MacroId → MacroId → String → Prop
  | here {active : List MacroId} {id : MacroId} {word : String} (mentioned : (draft.program.directive id).Mentions word)
      (kept : ∀ inner, draft.definition? word = some inner → inner ∈ id :: active) : LeavesOver draft active id id word
  | inside {active : List MacroId} {id inner leaf : MacroId} {name word : String}
      (mentioned : (draft.program.directive id).Mentions name) (defined : draft.definition? name = some inner)
      (fresh : inner ∉ id :: active) (left : LeavesOver draft (id :: active) inner leaf word) :
      LeavesOver draft active id leaf word

variable {draft : Draft} {span : Span} {depth : Nat} {active : List MacroId} {id : MacroId} {decl : DeclId}

/-- One level: a name in the replacement is expanded again unless its macro is being expanded, and then it is left over.
-/
theorem cites_expansionFrom_succ : (draft.expansionFrom span (depth + 1) active id).Cites decl ↔
    ∃ name ∈ (draft.program.directive id).names,
      (∃ inner, draft.definition? name = some inner ∧ inner ∉ id :: active ∧
        (draft.expansionFrom span depth (id :: active) inner).Cites decl) ∨
      (∀ inner, draft.definition? name = some inner → inner ∈ id :: active) ∧ draft.ordinary? name = some decl := by
  rw [expansionFrom, Stmt.cites_node]
  simp only [reduceCtorEq, exists_false, false_or, List.mem_filterMap]
  constructor
  · rintro ⟨child, ⟨name, listed, made⟩, cites⟩
    refine ⟨name, listed, ?_⟩
    split at made
    · next inner found =>
      obtain ⟨defined, fresh⟩ := Option.filter_eq_some_iff.mp found
      cases made
      exact .inl ⟨inner, defined, by simpa using fresh, cites⟩
    · next missing =>
      obtain ⟨bound, known, rfl⟩ := Option.map_eq_some_iff.mp made
      rw [Stmt.cites_leaf] at cites
      refine .inr ⟨fun inner defined => ?_, cites ▸ known⟩
      have active := Option.filter_eq_none_iff.mp missing inner defined
      rwa [Bool.not_eq_true, Bool.not_eq_false', List.contains_iff_mem] at active
  · rintro ⟨name, listed, ⟨inner, defined, fresh, cites⟩ | ⟨kept, known⟩⟩
    · refine ⟨_, ⟨name, listed, ?_⟩, cites⟩
      have found : (draft.definition? name).filter (fun inner => !(id :: active).contains inner) = some inner :=
        Option.filter_eq_some_iff.mpr ⟨defined, by simpa using fresh⟩
      rw [found]
    · refine ⟨.leaf (.declRef decl false) span, ⟨name, listed, ?_⟩, Stmt.cites_leaf.mpr rfl⟩
      have missing : (draft.definition? name).filter (fun inner => !(id :: active).contains inner) = none :=
        Option.filter_eq_none_iff.mpr fun inner defined => by
          rw [Bool.not_eq_true, Bool.not_eq_false', List.contains_iff_mem]
          exact kept inner defined
      rw [missing, known, Option.map_some]

/-- The macros being expanded are different directives, each in force, and the levels that remain suffice for the
rest. -/
structure Expanding (draft : Draft) (depth : Nat) (active : List MacroId) (id : MacroId) : Prop where
  inForce : draft.definition? (draft.program.directive id).name = some id
  nodup : (id :: active).Nodup
  bounded : ∀ other ∈ id :: active, other < draft.program.macros.size
  enough : draft.program.macros.size ≤ depth + active.length

theorem Expanding.positive (expanding : draft.Expanding depth active id) : 0 < depth := by
  have few : (id :: active).length ≤ (List.range draft.program.macros.size).length :=
    (expanding.nodup.subperm fun other listed => List.mem_range.mpr (expanding.bounded other listed)).length_le
  have enough := expanding.enough
  rw [List.length_cons, List.length_range] at few
  omega

theorem Expanding.inside (expanding : draft.Expanding (depth + 1) active id) {name : String} {inner : MacroId}
    (defined : draft.definition? name = some inner) (fresh : inner ∉ id :: active) :
    draft.Expanding depth (id :: active) inner where
  inForce := by rw [name_of_definition defined, defined]
  nodup := List.nodup_cons.mpr ⟨fresh, expanding.nodup⟩
  bounded := List.forall_mem_cons.mpr ⟨lt_of_definition defined, expanding.bounded⟩
  enough := by
    have enough := expanding.enough
    rw [List.length_cons]
    omega

/-- An expansion refers to the declarations of the names left over, each outside the replacement of its own macro. -/
theorem cites_expansionFrom (lists : ∀ id, id < draft.program.macros.size → (draft.program.directive id).ListsNames)
    (expanding : draft.Expanding depth active id) :
    (draft.expansionFrom span depth active id).Cites decl ↔
      ∃ leaf word, draft.LeavesOver active id leaf word ∧ word ≠ (draft.program.directive leaf).name ∧
        draft.ordinary? word = some decl := by
  induction depth generalizing active id with
  | zero => exact absurd expanding.positive (Nat.lt_irrefl 0)
  | succ depth ih =>
    have listed := lists id (expanding.bounded id (List.mem_cons_self ..))
    rw [cites_expansionFrom_succ]
    constructor
    · rintro ⟨name, known, ⟨inner, defined, fresh, cites⟩ | ⟨kept, bound⟩⟩
      · obtain ⟨leaf, word, left, other, bound⟩ := (ih (expanding.inside defined fresh)).mp cites
        exact ⟨leaf, word, .inside ((listed name).mp known).1 defined fresh left, other, bound⟩
      · obtain ⟨mentioned, other⟩ := (listed name).mp known
        exact ⟨id, name, .here mentioned kept, other, bound⟩
    · rintro ⟨leaf, word, left, other, bound⟩
      cases left with
      | here mentioned kept => exact ⟨word, (listed word).mpr ⟨mentioned, other⟩, .inr ⟨kept, bound⟩⟩
      | @inside _ _ inner _ name _ mentioned defined fresh left =>
        -- The name is not that of the macro itself, which is in force and being expanded.
        have foreign : name ≠ (draft.program.directive id).name := by
          rintro rfl
          rw [expanding.inForce] at defined
          cases defined
          exact fresh (List.mem_cons_self ..)
        exact ⟨name, (listed name).mpr ⟨mentioned, foreign⟩,
          .inl ⟨inner, defined, fresh, (ih (expanding.inside defined fresh)).mpr ⟨leaf, word, left, other, bound⟩⟩⟩

end Draft

theorem Draft.mem_replacementNames {name word : String} {params : Option (List String)} {body : List Char} :
    word ∈ Draft.replacementNames name params body ↔
      word ∈ (identifiers body).map (·.2) ∧ word ≠ name ∧ word ∉ params.getD [] := by
  simp [Draft.replacementNames]

namespace Opening

theorem Relays.listsNames {first last : Array MacroDirective} {openings : List Opening}
    (relays : Relays first openings last)
    (lists : ∀ directive ∈ first, directive.ListsNames) : ∀ directive ∈ last, directive.ListsNames := by
  induction openings generalizing first with
  | nil =>
    rw [relays]
    exact lists
  | cons opening rest ih =>
    rw [← relays.1] at lists
    refine ih relays.2 ?_
    unfold Opening.macros
    split
    · next name kind said =>
      intro directive member
      rcases Array.mem_push.mp member with old | rfl
      · exact lists directive old
      · intro word
        cases form : opening.item.form with
        | define name params body =>
          rw [form] at said
          cases said
          simp only [MacroDirective.names, MacroDirective.Mentions, Draft.mem_replacementNames]
          grind
        | undef =>
          rw [form] at said
          cases said
          simp [MacroDirective.names, MacroDirective.Mentions]
        | inclusion | directive | function | declaration | other =>
          rw [form] at said
          cases said
    · exact lists

theorem Occurs.listsNames {openings : List Opening} {last : Array MacroDirective} {opening : Opening}
    (relays : Relays #[] openings last) (member : opening ∈ openings) {moment : Draft} (occurs : opening.Occurs moment)
    (id : MacroId) (inside : id < moment.program.macros.size) : (moment.program.directive id).ListsNames := by
  obtain ⟨front, back, rfl⟩ := List.append_of_mem member
  have lists := relays.front.listsNames (by simp)
  rw [← occurs.macros] at lists
  rw [Program.directive, Array.getD_eq_getD_getElem?, Array.getElem?_eq_getElem inside]
  exact lists _ (Array.getElem_mem inside)

end Opening

namespace Draft

/-- What a use of the macro `id` in a body is read as: its name alone, or its name in front of arguments. -/
def UsedAs (draft : Draft) (id : MacroId) (stmt : Stmt) : Prop :=
  ∃ name, draft.definition? name = some id ∧
    ((draft.program.directive id).isFunctionLike = false ∧ (∃ span, draft.nameStmt? name span = some stmt) ∨
      ∃ extent, draft.macroCallee? (.name name extent) = some stmt)

theorem nameStmt_of_definition {draft : Draft} {name : String} {id : MacroId}
    (defined : draft.definition? name = some id)
    (plain : (draft.program.directive id).isFunctionLike = false) (span : Span) :
    draft.nameStmt? name span = some (draft.expansion span id) := by
  have like : draft.definitionLike? false name = some id := Option.filter_eq_some_iff.mpr ⟨defined, by simp [plain]⟩
  rw [nameStmt?, like]

theorem UsedAs.eq_expansion {draft : Draft} {id : MacroId} {stmt : Stmt} (used : draft.UsedAs id stmt) :
    ∃ name span, draft.definition? name = some id ∧ stmt = draft.expansion span id := by
  obtain ⟨name, defined, ⟨plain, span, found⟩ | ⟨extent, found⟩⟩ := used
  · rw [nameStmt_of_definition defined plain] at found
    exact ⟨name, span, defined, (Option.some.inj found).symm⟩
  · obtain ⟨inner, like, rfl⟩ := Option.map_eq_some_iff.mp found
    obtain ⟨same, -⟩ := Option.filter_eq_some_iff.mp like
    rw [defined] at same
    cases same
    exact ⟨name, draft.spanOf extent, defined, rfl⟩

theorem expanding_of_definition {draft : Draft} {name : String} {id : MacroId}
    (defined : draft.definition? name = some id) : draft.Expanding draft.program.macros.size [] id where
  inForce := by rw [name_of_definition defined, defined]
  nodup := List.nodup_singleton id
  bounded := List.forall_mem_singleton.mpr (lt_of_definition defined)
  enough := Nat.le_refl _

end Draft

/-- While an item is entered, a use of a macro refers to exactly the declarations of the names that its expansion
leaves over, each outside the replacement of the macro of that name. -/
theorem Program.use_cites_iff (files : FileSystem) (search : SearchPath) (path : String) (document : Document) :
    ∀ opening ∈ Program.openingsOf files search path document, ∀ moment, opening.Occurs moment →
      ∀ id stmt, moment.UsedAs id stmt → ∀ decl, stmt.Cites decl ↔
        ∃ leaf word, moment.LeavesOver [] id leaf word ∧ word ≠ (moment.program.directive leaf).name ∧
          moment.ordinary? word = some decl := by
  intro opening member moment occurs id stmt used decl
  have lists := occurs.listsNames (Program.ofDocument_opened files search path document).relays member
  obtain ⟨name, span, defined, rfl⟩ := used.eq_expansion
  exact Draft.cites_expansionFrom lists (Draft.expanding_of_definition defined)

/-- A variable, two macros that stand for each other, and a use of the one with the name of the variable. -/
def crossedUnit : Document :=
  Written.document
    [("", .object "a"), ("\n", .define "a" "b"), ("", .define "b" "(a + 1)"), ("", .function "f" (.reference "a"))]

set_option maxRecDepth 10000 in
theorem Program.use_cites_crossed : ∃ opening ∈ Program.openingsOf ⟨[], []⟩ ⟨[]⟩ "unit.c" crossedUnit, ∃ stmt,
    opening.draft.UsedAs 0 stmt ∧ opening.draft.LeavesOver [] 0 1 "a" ∧
      opening.draft.ordinary? "a" = some 0 ∧ stmt.Cites 0 := by
  obtain ⟨opening, found, facts⟩ :
      ∃ opening, (Program.openingsOf ⟨[], []⟩ ⟨[]⟩ "unit.c" crossedUnit)[3]? = some opening ∧
      ((opening.draft.definition? "a", opening.draft.definition? "b"), opening.draft.ordinary? "a",
        (opening.draft.program.directive 0).kind, (opening.draft.program.directive 1).kind,
        (opening.draft.program.directive 1).name) =
      ((some 0, some 1), some 0, .define none ['b'] ["b"], .define none "(a + 1)".toList ["a"], "b") :=
    Option.map_eq_some_iff.mp (by decide +kernel)
  simp only [Prod.mk.injEq] at facts
  obtain ⟨⟨isA, isB⟩, bound, kindA, kindB, nameB⟩ := facts
  have member := List.mem_of_getElem? found
  have left : opening.draft.LeavesOver [] 0 1 "a" := by
    have mentioned : (opening.draft.program.directive 0).Mentions "b" := ⟨none, _, _, kindA, by decide, by simp⟩
    refine .inside mentioned isB (by decide) (.here ⟨none, _, _, kindB, by decide, by simp⟩ ?_)
    intro inner defined
    rw [isA] at defined
    cases defined
    decide
  have plain : (opening.draft.program.directive 0).isFunctionLike = false := by
    rw [MacroDirective.isFunctionLike, kindA]
  have used : opening.draft.UsedAs 0 (opening.draft.expansion ⟨0, 0, 0⟩ 0) :=
    ⟨"a", isA, .inl ⟨plain, _, Draft.nameStmt_of_definition isA plain _⟩⟩
  have cites := Program.use_cites_iff _ _ _ _ opening member _ (.inl rfl) 0 _ used 0
  exact ⟨opening, member, _, used, left, bound, cites.mpr ⟨1, "a", left, by rw [nameB]; decide, bound⟩⟩

def wrappedUnit : Document :=
  Written.document [("", .object "g"), ("\n", .define "g" "(g + 1)"), ("", .function "f" (.reference "g"))]

set_option maxRecDepth 10000 in
/-- A macro that mentions its own name does not refer to the variable of that name, and the variable is not kept. -/
theorem Program.use_misses_own_name : (∃ opening ∈ Program.openingsOf ⟨[], []⟩ ⟨[]⟩ "unit.c" wrappedUnit, ∃ stmt,
      opening.draft.UsedAs 0 stmt ∧ opening.draft.LeavesOver [] 0 0 "g" ∧ opening.draft.ordinary? "g" = some 0 ∧
        ¬stmt.Cites 0) ∧
    (({} : Config).session (.ofDocument ⟨[], []⟩ ⟨[]⟩ "unit.c" wrappedUnit)).closure ["f"] = .ok
      { roots := [1], decls := [1], macros := [0], needsUndef := [], renames := [], passSizes := [1] } := by
  refine ⟨?_, by decide +kernel⟩
  obtain ⟨opening, found, facts⟩ :
      ∃ opening, (Program.openingsOf ⟨[], []⟩ ⟨[]⟩ "unit.c" wrappedUnit)[2]? = some opening ∧
      (opening.draft.definition? "g", opening.draft.ordinary? "g", (opening.draft.program.directive 0).kind,
        opening.draft.program.macros.size) = (some 0, some 0, .define none "(g + 1)".toList [], 1) :=
    Option.map_eq_some_iff.mp (by decide +kernel)
  simp only [Prod.mk.injEq] at facts
  obtain ⟨defined, bound, kind, count⟩ := facts
  have plain : (opening.draft.program.directive 0).isFunctionLike = false := by
    rw [MacroDirective.isFunctionLike, kind]
  have left : opening.draft.LeavesOver [] 0 0 "g" := by
    refine .here ⟨none, _, _, kind, by decide, by simp⟩ fun inner found => ?_
    rw [defined] at found
    cases found
    decide
  refine ⟨opening, List.mem_of_getElem? found, opening.draft.expansion ⟨0, 0, 0⟩ 0,
    ⟨"g", defined, .inl ⟨plain, _, Draft.nameStmt_of_definition defined plain _⟩⟩, left, bound, ?_⟩
  rw [Draft.expansion, count, Draft.cites_expansionFrom_succ, MacroDirective.names, kind]
  simp

end Excerpt
