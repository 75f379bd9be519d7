import Excerpt.Config.Basic
import Excerpt.Proofs.Closure.Rules
import Excerpt.Proofs.Draft.Written

/-!
The marking ends. Each loop is given a second time as a relation between what it starts with and what it leaves, with no
bound on its steps. For each start there is exactly one derivation, and it leaves what the bounded loop computes.
-/

namespace Excerpt

namespace Program

/-- A body or an initializer declares `id` in one of its blocks. -/
def IsLocal (program : Program) (id : DeclId) : Prop :=
  ∃ owner body, (program.decl owner).kind.body? = some body ∧ body.Declares id

/-- What is declared inside the initializer of a local variable is declared after the variable. -/
def LocalsOrdered (program : Program) : Prop :=
  ∀ (id : Nat) type init, program.IsLocal id → (program.decl id).kind = .var type (some init) →
    ∀ inner, init.Declares inner → id < inner

abbrev Decomposes (program : Program) : List TypeId → List TypeId → List TypeId → Prop :=
  Searches some fun id => (program.type id).parts

/-- Takes nodes off a stack. The children of a node come in its place, and behind them the initializer of the variable
that it declares. -/
inductive Walks (program : Program) : List Stmt → List Stmt → Prop
  | done : Walks program [] []
  | node {kind : StmtKind} {span : Span} {children stack met : List Stmt}
      (rest : Walks program (children ++ ((program.localInit? kind).toList ++ stack)) met) :
      Walks program (.node kind span children :: stack) (.node kind span children :: met)

variable {program : Program}

theorem Walks.unique {stack met other : List Stmt} (first : program.Walks stack met)
    (second : program.Walks stack other) : other = met := by
  induction first generalizing other with
  | done => cases second; rfl
  | node _ ih =>
    cases second with
    | node rest => rw [ih rest]

section Nodes

variable {after : StmtKind → List Stmt}

/-- Going on from a stack meets the nodes of an initializer, and then those of the stack. -/
def Continues (program : Program) (after : StmtKind → List Stmt) (kind : StmtKind) : Prop :=
  ∀ stack met, program.Walks stack met → program.Walks ((program.localInit? kind).toList ++ stack) (after kind ++ met)

mutual

theorem walks_nodesWith : ∀ (stmt : Stmt) {stack met : List Stmt},
    (∀ node ∈ stmt.preorder, program.Continues after node.kind) → program.Walks stack met →
    program.Walks (stmt :: stack) (stmt.nodesWith after ++ met)
  | .node kind span children, stack, met, continues, walks => by
    rw [Stmt.nodesWith, List.cons_append, List.append_assoc]
    refine .node (walks_nodesAllWith children (fun node member => continues node ?_) ?_)
    · rw [Stmt.preorder]
      exact List.mem_cons_of_mem _ member
    · exact continues _ (Stmt.self_mem_preorder _) stack met walks

theorem walks_nodesAllWith : ∀ (stmts : List Stmt) {stack met : List Stmt},
    (∀ node ∈ Stmt.preorderAll stmts, program.Continues after node.kind) → program.Walks stack met →
    program.Walks (stmts ++ stack) (Stmt.nodesAllWith after stmts ++ met)
  | [], stack, met, _, walks => walks
  | stmt :: rest, stack, met, continues, walks => by
    simp only [Stmt.preorderAll, List.mem_append] at continues
    rw [Stmt.nodesAllWith, List.append_assoc]
    refine walks_nodesWith stmt (fun node member => continues node (.inl member)) ?_
    exact walks_nodesAllWith rest (fun node member => continues node (.inr member)) walks

end

end Nodes

/-- The walk goes no deeper into initializers than `depth`, when few enough declarations come behind the local ones of
the body. -/
theorem walks_nodesTo (ordered : program.LocalsOrdered) {depth : Nat} {owner : DeclId} {body : Stmt}
    (owned : (program.decl owner).kind.body? = some body)
    (late : ∀ id : Nat, body.Declares id → program.decls.size ≤ id + depth) {stack met : List Stmt}
    (walks : program.Walks stack met) : program.Walks (body :: stack) (program.nodesTo depth body ++ met) := by
  induction depth generalizing owner body stack met with
  | zero =>
    refine walks_nodesWith body (fun node member stack met walks => ?_) walks
    cases found : program.localInit? node.kind with
    | none => exact walks
    | some init =>
      obtain ⟨id, type, declares, inside, -⟩ := localInit?_eq_some found
      exact absurd (late id ⟨node, member, declares⟩) (Nat.not_le.mpr inside)
  | succ depth ih =>
    refine walks_nodesWith body (fun node member stack met walks => ?_) walks
    cases found : program.localInit? node.kind with
    | none => exact walks
    | some init =>
      obtain ⟨id, type, declares, -, kind⟩ := localInit?_eq_some found
      have declared : body.Declares id := ⟨node, member, declares⟩
      have own : (program.decl id).kind.body? = some init := by rw [kind]; rfl
      refine ih own (fun inner inside => ?_) walks
      have bound := late id declared
      have less := ordered id type init ⟨owner, body, owned, declared⟩ kind inner inside
      omega

theorem walks_nodes (ordered : program.LocalsOrdered) {owner : DeclId} {body : Stmt}
    (owned : (program.decl owner).kind.body? = some body) : program.Walks [body] (program.nodes body) := by
  have walks := walks_nodesTo ordered owned (fun id _ => Nat.le_add_left program.decls.size id) .done
  rwa [List.append_nil] at walks

theorem decomposes_components (id : TypeId) : program.Decomposes [] [id] (program.components id) := by
  rw [components, componentsFrom_eq_searchFrom, ← unseenKeys_parts]
  exact searchFrom_searches some [] [id] program.parts_of_size_le (Nat.le_refl _)

theorem exists_decomposes (seen stack : List TypeId) : ∃ listed, program.Decomposes seen stack listed :=
  ⟨_, searchFrom_searches some seen stack program.parts_of_size_le (Nat.le_refl _)⟩

end Program

namespace Session

/-- Takes names off a stack and puts the names in the definitions visible at `pos` and not met before in their place. -/
abbrev Backtracks (session : Session) (pos : SourcePos) : List MacroId → List String → List MacroId → Prop :=
  Searches (fun name => session.program.visibleDefinition? name pos) fun id => (session.program.directive id).names

section Loops

variable (session : Session) (rootChains : List ChainId)

inductive Empties : Marking → Marking → Prop
  | done {marking : Marking} (idle : marking.queue = []) : Empties marking marking
  | next {marking after : Marking} {id : DeclId} {queue : List DeclId} (waiting : marking.queue = id :: queue)
      (rest : Empties (session.process rootChains { marking with queue } id) after) : Empties marking after

inductive WalksBodies : List DeclId → Marking → Marking → Prop
  | done {marking : Marking} : WalksBodies [] marking marking
  | next {marking drained after : Marking} {id : DeclId} {rest : List DeclId}
      (empties : session.Empties rootChains (marking.markAll (session.bodyDecls id)) drained)
      (walks : WalksBodies rest drained after) : WalksBodies (id :: rest) marking after

inductive Settles : Marking → Marking → Prop
  | done {marking drained : Marking} (empties : session.Empties rootChains marking drained)
      (idle : drained.pending = []) : Settles marking drained
  | pass {marking drained walked after : Marking} (empties : session.Empties rootChains marking drained)
      (due : drained.pending ≠ [])
      (walks : session.WalksBodies rootChains drained.pending { drained with pending := [] } walked)
      (rest : Settles { walked with passSizes := walked.passSizes ++ [session.expandedCount walked] } after) :
      Settles marking after

inductive Saturates : Marking → Marking → Prop
  | done {marking settled extended : Marking} (settles : session.Settles rootChains marking settled)
      (empties : session.Empties rootChains (settled.markAll (session.enumDecls settled.macros)) extended)
      (stable : extended.decls.length = settled.decls.length ∧ extended.pending = []) : Saturates marking extended
  | again {marking settled extended after : Marking} (settles : session.Settles rootChains marking settled)
      (empties : session.Empties rootChains (settled.markAll (session.enumDecls settled.macros)) extended)
      (unstable : ¬(extended.decls.length = settled.decls.length ∧ extended.pending = []))
      (rest : Saturates extended after) : Saturates marking after

end Loops

/-- A request fails for a function that is not found, or its roots are marked and the marking is saturated. -/
inductive Computes (session : Session) (functions : List String) : Except Error Closure → Prop
  | unresolved {error : Error} (failed : functions.mapM session.root = .error error) :
      Computes session functions (.error error)
  | closed {roots : List DeclId} {marking : Marking} (found : functions.mapM session.root = .ok roots)
      (saturates : session.Saturates (session.chainsOf roots) (session.requested roots) marking) :
      Computes session functions (.ok
        { roots
          decls := marking.decls
          macros := marking.macros
          needsUndef := marking.macros.filter session.isReplaced
          renames := marking.renames
          passSizes := marking.passSizes })

variable {session : Session} {rootChains : List ChainId} {marking after other : Marking}

/-- A queue can be emptied in one way only, by induction on the first of two derivations. -/
theorem Empties.unique (first : session.Empties rootChains marking after)
    (second : session.Empties rootChains marking other) : other = after := by
  induction first with
  | done idle =>
    cases second with
    | done => rfl
    | next waiting => simp [idle] at waiting
  | next waiting _ ih =>
    cases second with
    | done idle => simp [waiting] at idle
    | next same rest =>
      obtain ⟨rfl, rfl⟩ := List.cons.inj (waiting.symm.trans same)
      exact ih rest

theorem WalksBodies.unique {ids : List DeclId} (first : session.WalksBodies rootChains ids marking after)
    (second : session.WalksBodies rootChains ids marking other) : other = after := by
  induction first with
  | done => cases second; rfl
  | next empties _ ih =>
    cases second with
    | next same walks =>
      obtain rfl := empties.unique same
      exact ih walks

theorem Settles.unique (first : session.Settles rootChains marking after)
    (second : session.Settles rootChains marking other) : other = after := by
  induction first with
  | done empties idle =>
    cases second with
    | done same => exact empties.unique same
    | pass same due => exact absurd idle (empties.unique same ▸ due)
  | pass empties due walks _ ih =>
    cases second with
    | done same idle => exact absurd (empties.unique same ▸ idle) due
    | pass same _ walked rest =>
      obtain rfl := empties.unique same
      obtain rfl := walks.unique walked
      exact ih rest

theorem Saturates.unique (first : session.Saturates rootChains marking after)
    (second : session.Saturates rootChains marking other) : other = after := by
  induction first with
  | done settles empties stable =>
    cases second with
    | done same drained =>
      obtain rfl := settles.unique same
      exact empties.unique drained
    | again same drained unstable =>
      obtain rfl := settles.unique same
      obtain rfl := empties.unique drained
      exact absurd stable unstable
  | again settles empties unstable _ ih =>
    cases second with
    | done same drained stable =>
      obtain rfl := settles.unique same
      obtain rfl := empties.unique drained
      exact absurd stable unstable
    | again same drained _ rest =>
      obtain rfl := settles.unique same
      obtain rfl := empties.unique drained
      exact ih rest

theorem drainFor_empties {fuel : Nat} (drained : (session.drainFor rootChains fuel marking).queue = []) :
    session.Empties rootChains marking (session.drainFor rootChains fuel marking) := by
  induction fuel generalizing marking with
  | zero => exact .done drained
  | succ fuel ih =>
    cases waiting : marking.queue with
    | nil =>
      simp only [drainFor, waiting]
      exact .done waiting
    | cons id queue =>
      simp only [drainFor, waiting] at drained ⊢
      exact .next waiting (ih drained)

section Ends

variable (rootChains : List ChainId) (inside : session.program.ChainsInside)
include inside

theorem drain_empties (sane : marking.Sane session.program.decls.size) :
    session.Empties rootChains marking (session.drain rootChains marking) :=
  drainFor_empties (drain_queue rootChains inside sane)

theorem walkBodies_walks (ids : List DeclId) (sane : marking.Sane session.program.decls.size) :
    session.WalksBodies rootChains ids marking (ids.foldl (session.walkBody rootChains) marking) := by
  induction ids generalizing marking with
  | nil => exact .done
  | cons id rest ih =>
    have marked : (marking.markAll (session.bodyDecls id)).Sane session.program.decls.size :=
      sane.markAll fun other => bodyDecls_inside inside
    exact .next (drain_empties rootChains inside marked)
      (ih (Run.sane (walkBody_run session rootChains marking id []) inside sane))

theorem passesFor_settles {fuel : Nat} {start : Marking} (empties : session.Empties rootChains start marking)
    (sane : marking.Sane session.program.decls.size) (drained : marking.queue = [])
    (ended : (session.passesFor rootChains fuel marking).pending = []) :
    session.Settles rootChains start (session.passesFor rootChains fuel marking) := by
  induction fuel generalizing start marking with
  | zero => exact .done empties ended
  | succ fuel ih =>
    unfold passesFor at ended ⊢
    split at ended
    · next idle =>
      rw [if_pos idle]
      exact .done empties ended
    · next busy =>
      rw [if_neg busy]
      have take : session.Advance rootChains (marking, []) (_, marking.pending ++ []) := .take
      have walks := walkBodies_walks rootChains inside marking.pending (take.sane inside sane)
      have next := pass_queue rootChains inside sane drained
      have rest := ih (.done next) (Run.sane (pass_run session rootChains marking) inside sane) next ended
      exact .pass empties (fun none => busy (List.isEmpty_iff.mpr none)) walks rest

theorem settle_settles (sane : marking.Sane session.program.decls.size) :
    session.Settles rootChains marking (session.settle rootChains marking) :=
  passesFor_settles rootChains inside (drain_empties rootChains inside sane)
    (Run.sane (drainFor_run session rootChains session.program.decls.size marking []) inside sane)
    (drain_queue rootChains inside sane) (settle_ends rootChains inside sane).2

/-- The bounded rounds are a derivation when there are as many as the unit has declarations. -/
theorem saturateFor_saturates {fuel : Nat} (sane : marking.Sane session.program.decls.size)
    (enough : session.program.decls.size + 1 ≤ fuel + marking.decls.length) :
    session.Saturates rootChains marking (session.saturateFor rootChains fuel marking) := by
  induction fuel generalizing marking with
  | zero =>
    have bound := sane.ascending.length_le sane.bounded
    omega
  | succ fuel ih =>
    have settles := settle_settles rootChains inside sane
    have settled := Run.sane (settle_run session rootChains marking) inside sane
    have step : session.Advance rootChains (session.settle rootChains marking, []) (_, []) := .enums
    have empties :
        session.Empties rootChains _ (session.markMacroEnums rootChains (session.settle rootChains marking)) :=
      drain_empties rootChains inside (step.sane inside settled)
    unfold saturateFor
    dsimp only
    split
    · next stable => exact .done settles empties stable
    · next unstable =>
      have extended := Run.sane (markMacroEnums_run session rootChains _) inside settled
      have longer := round_length rootChains inside sane unstable
      exact .again settles empties unstable (ih extended (by omega))

theorem computes_closure (functions : List String) : session.Computes functions (session.closure functions) := by
  unfold closure
  cases found : functions.mapM session.root with
  | error error => exact .unresolved found
  | ok roots =>
    exact .closed found
      (saturateFor_saturates (session.chainsOf roots) inside (requested_sane inside) (Nat.le_add_right _ _))

end Ends

theorem Computes.unique {functions : List String} {result second : Except Error Closure}
    (computes : session.Computes functions result) (again : session.Computes functions second) : second = result := by
  cases computes with
  | unresolved failed =>
    cases again with
    | unresolved same => exact congrArg _ (Except.error.inj (same.symm.trans failed))
    | closed found => cases failed.symm.trans found
  | closed found saturates =>
    cases again with
    | unresolved failed => cases failed.symm.trans found
    | closed same saturated =>
      obtain rfl := Except.ok.inj (found.symm.trans same)
      rw [saturates.unique saturated]

theorem backtracks_expansion (name : String) (pos : SourcePos) :
    session.Backtracks pos [] [name] (session.expansion name pos) := by
  rw [expansion, expansionFrom_eq_searchFrom, ← unseenKeys_names]
  exact searchFrom_searches _ [] [name] (names_of_size_le _) (Nat.le_refl _)

theorem exists_backtracks (pos : SourcePos) (seen : List MacroId) (stack : List String) :
    ∃ listed, session.Backtracks pos seen stack listed :=
  ⟨_, searchFrom_searches _ seen stack (names_of_size_le _) (Nat.le_refl _)⟩

/-- Every loop of the marking comes to its end, whatever was met before, and each leaves what it computes with a bound
on its steps: the search through the parts of a type, the walk through each body, the search through the replacements
of a macro, and for every request the loops over the queue, the passes and the rounds. -/
theorem closure_terminates (inside : session.program.ChainsInside) (ordered : session.program.LocalsOrdered) :
    (∀ seen types, ∃ listed, session.program.Decomposes seen types listed) ∧
    (∀ type listed, session.program.Decomposes [] [type] listed ↔ listed = session.program.components type) ∧
    (∀ owner body, (session.program.decl owner).kind.body? = some body →
      ∀ met, session.program.Walks [body] met ↔ met = session.program.nodes body) ∧
    (∀ pos seen names, ∃ listed, session.Backtracks pos seen names listed) ∧
    (∀ pos name listed, session.Backtracks pos [] [name] listed ↔ listed = session.expansion name pos) ∧
    ∀ functions result, session.Computes functions result ↔ result = session.closure functions := by
  refine ⟨Program.exists_decomposes, fun type listed => ?_, fun owner body owned met => ?_, exists_backtracks,
    fun pos name listed => ?_, fun functions result => ?_⟩
  · have ends := @Program.decomposes_components session.program type
    exact ⟨ends.unique, fun same => same ▸ ends⟩
  · have ends := Program.walks_nodes ordered owned
    exact ⟨ends.unique, fun same => same ▸ ends⟩
  · have ends := session.backtracks_expansion name pos
    exact ⟨ends.unique, fun same => same ▸ ends⟩
  · have ends := computes_closure inside functions
    exact ⟨ends.unique, fun same => same ▸ ends⟩

theorem IsRead.localsOrdered (read : session.IsRead) : session.program.LocalsOrdered :=
  fun id type init _ => read.consistent.locals id type init

/-- A structure that points to its own kind, two macros that name each other, and a function that calls itself and has a
variable inside the initializer of another. -/
def circular : Session :=
  ({} : Config).session (.ofDocument ⟨[], []⟩ ⟨[]⟩ "unit.c"
    (Written.document
      [("", .linkedRecord "s" "next"), ("", .token "';" ";"), ("\n", .enumeration "E" "K"), ("", .token "';" ";"),
        ("\n", .define "A" "B"), ("", .define "B" "A + K"),
        ("", .function "f"
          (.blockValue "parenthesized_expression"
            (.initialized "x"
              (.blockValue "value.parenthesized_expression" (.recordPointer "s" "p") (.reference "A")))
            (.call "f")))]))

set_option maxRecDepth 10000 in
theorem closure_terminates_circular : circular.program.ChainsInside ∧ circular.program.LocalsOrdered ∧
    circular.Computes ["f"] (.ok
      { roots := [3], decls := [0, 1, 2, 3], macros := [0, 1], needsUndef := [], renames := [], passSizes := [4] }) ∧
    ∃ body, (circular.program.decl 3).kind.body? = some body ∧
      circular.program.Walks [body] (circular.program.nodes body) ∧ (circular.program.nodes body).length = 18 := by
  have read : circular.IsRead := ⟨_, _, _, _, rfl⟩
  have inside := read.consistent.chainsInside
  have ordered := read.localsOrdered
  have found : circular.closure ["f"] = .ok
      { roots := [3], decls := [0, 1, 2, 3], macros := [0, 1], needsUndef := [], renames := [], passSizes := [4] } := by
    decide +kernel
  obtain ⟨-, -, walks, -, -, computes⟩ := closure_terminates inside ordered
  have nodes :
      ((circular.program.decl 3).kind.body?.map fun body => (circular.program.nodes body).length) = some 18 := by
    decide +kernel
  obtain ⟨body, owned, length⟩ := Option.map_eq_some_iff.mp nodes
  exact ⟨inside, ordered, (computes ["f"] _).mpr found.symm, body, owned, (walks 3 body owned _).mpr rfl, length⟩

end Session

end Excerpt
